import FeatureFile.Proofs.Document.Control
/-!
The sequences of events an assembly accepts. Apart from comments and tags they are the sentences of
a grammar of documents; tags may stand wherever the next event that tags matter to is a header that
takes them.
-/

namespace FeatureFile

/-- Whether the event belongs to the structure of a document. -/
def Event.isContent : Event → Bool
  | comment _ _ | tag _ _ => false
  | header _ _ | step _ _ _ | row _ _ | docString _ _ | endOfInput _ => true

/-- Whether the event is a row. -/
def Event.isRow : Event → Bool
  | row _ _ => true
  | _ => false

/-- Whether the event is the end of the document. -/
def Event.isEnd : Event → Bool
  | endOfInput _ => true
  | _ => false

/-- One or more rows. -/
def IsTable (events : List Event) : Prop :=
  events ≠ [] ∧ ∀ event ∈ events, event.isRow = true

/-- What a step may carry: nothing, a table or a doc string. -/
inductive IsArgument : List Event → Prop where
  | nothing : IsArgument []
  | table {rows : List Event} : IsTable rows → IsArgument rows
  | docString (content : Text) (line : Nat) : IsArgument [.docString content line]

/-- Steps, each with what it carries. -/
inductive IsSteps : List Event → Prop where
  | nil : IsSteps []
  | step (keyword name : Text) (line : Nat) {argument rest : List Event} :
    IsArgument argument → IsSteps rest → IsSteps (.step keyword name line :: (argument ++ rest))

/-- One or more examples sections, each with a table. -/
inductive IsExamples : List Event → Prop where
  | one (h : Header) {rows : List Event} : IsTable rows → IsExamples (.header .examples h :: rows)
  | more (h : Header) {rows rest : List Event} :
    IsTable rows → IsExamples rest → IsExamples (.header .examples h :: (rows ++ rest))

/-- Scenarios and outlines. -/
inductive IsElements : List Event → Prop where
  | nil : IsElements []
  | scenario (h : Header) {steps rest : List Event} :
    IsSteps steps → IsElements rest → IsElements (.header .scenario h :: (steps ++ rest))
  | outline (h : Header) {steps sections rest : List Event} :
    IsSteps steps → IsExamples sections → IsElements rest →
      IsElements (.header .outline h :: (steps ++ (sections ++ rest)))

/-- A whole document: nothing, or a feature with its background and its elements. -/
inductive IsDocument : List Event → Prop where
  | empty (line : Nat) : IsDocument [.endOfInput line]
  | feature (h : Header) {elements : List Event} (line : Nat) :
    IsElements elements → IsDocument (.header .feature h :: (elements ++ [.endOfInput line]))
  | background (h b : Header) {steps elements : List Event} (line : Nat) :
    IsSteps steps → IsElements elements →
      IsDocument (.header .feature h :: .header .background b ::
        (steps ++ (elements ++ [.endOfInput line])))

/-- The next event that tags matter to takes them, if there is one. -/
def TagsMet (events : List Event) : Prop :=
  ∀ event, events.find? Event.meetsTags = some event → event.takesTags = true

/-- Behind every tag, the next event that tags matter to takes them. -/
def TagsTaken (events : List Event) : Prop :=
  ∀ before name line after, events = before ++ .tag name line :: after →
    ∃ event, after.find? Event.meetsTags = some event ∧ event.takesTags = true

namespace Control

/-- Comments and tags are loops of every control state. -/
theorem run?_filter_isContent (control : Control) (events : List Event) :
    control.run? (events.filter Event.isContent) = control.run? events := by
  induction events generalizing control with
  | nil => rfl
  | cons event events ih =>
    cases content : event.isContent with
    | true => simp [List.filter_cons_of_pos content, run?, ih]
    | false =>
      have loop : control.next? event = some control := by
        cases event with
        | comment => rfl
        | tag => rfl
        | _ => cases content
      simp [content, run?, loop, ih]

end Control

theorem tagsMet_cons (event : Event) (events : List Event) :
    TagsMet (event :: events) ↔
      if event.meetsTags then event.takesTags = true else TagsMet events := by
  cases meets : event.meetsTags <;> simp [TagsMet, List.find?, meets]

/-- Behind every tag, no event refuses the tags that wait. -/
def NoTagRefused (events : List Event) : Prop :=
  ∀ before name line after, events = before ++ .tag name line :: after → TagsMet after

theorem noTagRefused_cons (event : Event) (events : List Event) :
    NoTagRefused (event :: events) ↔
      (∀ name line, event = .tag name line → TagsMet events) ∧ NoTagRefused events := by
  constructor
  · intro all
    refine ⟨fun name line same => all [] name line events (by rw [same]; rfl), ?_⟩
    intro before name line after split
    exact all (event :: before) name line after (by rw [split]; rfl)
  · rintro ⟨first, rest⟩ before name line after split
    cases before with
    | nil =>
      obtain ⟨rfl, rfl⟩ := List.cons.inj split
      exact first name line rfl
    | cons other before =>
      exact rest before name line after (List.cons.inj split).2

namespace Assembly

/-- Whether tags wait behind an accepted event: it is a tag, or it leaves alone those that did. -/
private theorem tagsBehind_ne_nil_iff (event : Event) (tags : List Tag) :
    event.tagsBehind tags ≠ [] ↔
      (∃ name line, event = .tag name line) ∨ (event.meetsTags = false ∧ tags ≠ []) := by
  cases event <;> simp [Event.tagsBehind, Event.meetsTags]

/-- The events are all accepted exactly when the control state has a run and no event is refused
for the tags that wait: neither for those that wait already nor for those to come. -/
theorem Sound.acceptEach_iff {a : Assembly} (sound : a.Sound) (events : List Event) :
    (∀ outcome ∈ a.acceptEach events, outcome.fault? = none) ↔
      (a.control.run? events).isSome ∧ (a.tags ≠ [] → TagsMet events) ∧ NoTagRefused events := by
  induction events generalizing a with
  | nil => simp [acceptEach, Control.run?, TagsMet, NoTagRefused]
  | cons event events ih =>
    have obeys := sound.obeys event
    rw [tagsMet_cons, noTagRefused_cons, Control.run?]
    simp only [acceptEach, List.mem_cons, forall_eq_or_imp]
    generalize reached : a.next? event = next at obeys
    cases obeys with
    | accepted b done sound' tags =>
      obtain ⟨allowed, moves⟩ : ¬(event.meetsTags ∧ !event.takesTags ∧ a.tags ≠ []) ∧
          a.control.next? event = some b.control := by
        simpa only [next?, Option.ite_none_left_eq_some] using reached
      have waits := tagsBehind_ne_nil_iff event a.tags
      rw [← tags] at waits
      rw [done, Outcome.after, ih sound', moves, waits]
      simp only [Outcome.fault?, true_and, Option.bind_some, or_imp, exists_imp]
      -- An event that tags matter to is no tag itself, and if some wait it has taken them.
      cases meets : event.meetsTags with
      | false => simp only [true_and, Bool.false_eq_true, if_false]; tauto
      | true =>
        have noTag : ∀ name line, event ≠ .tag name line := by
          rintro name line rfl
          cases meets
        have taken : a.tags ≠ [] → event.takesTags = true := by
          intro waiting
          by_contra refuses
          exact allowed ⟨meets, by simpa using refuses, waiting⟩
        simp only [noTag, if_true]
        tauto
    | refused fault done =>
      have stuck : a.control.next? event = none ∨
          (event.meetsTags = true ∧ event.takesTags = false ∧ a.tags ≠ []) := by
        by_cases waiting : event.meetsTags ∧ !event.takesTags ∧ a.tags ≠ []
        · exact .inr ⟨waiting.1, by simpa using waiting.2.1, waiting.2.2⟩
        · exact .inl (by simpa only [next?, waiting, if_false] using reached)
      simp only [done, Outcome.fault?, reduceCtorEq, false_and, false_iff]
      rintro ⟨runs, met, _⟩
      rcases stuck with none | ⟨meets, takes, waiting⟩
      · simp [none] at runs
      · simp [meets, takes, waiting] at met

end Assembly

/-! ### From the grammar to runs -/

namespace Control

private theorem run?_rows {control : Control} (loop : control.row? = some control)
    {rows : List Event} (all : ∀ event ∈ rows, event.isRow = true) (rest : List Event) :
    control.run? (rows ++ rest) = control.run? rest := by
  induction rows with
  | nil => rfl
  | cons row rows ih =>
    cases row with
    | row =>
      rw [List.cons_append, run?, next?, loop, Option.bind_some]
      exact ih fun event member => all event (List.mem_cons_of_mem _ member)
    | _ => cases all _ List.mem_cons_self

private theorem run?_table {control after : Control} (first : control.row? = some after)
    (loop : after.row? = some after) {rows : List Event} (table : IsTable rows)
    (rest : List Event) : control.run? (rows ++ rest) = after.run? rest := by
  obtain ⟨some, all⟩ := table
  cases rows with
  | nil => exact absurd rfl some
  | cons row rows =>
    cases row with
    | row =>
      rw [List.cons_append, run?, next?, first, Option.bind_some]
      exact run?_rows loop (fun event member => all event (List.mem_cons_of_mem _ member)) rest
    | _ => cases all _ List.mem_cons_self

private theorem run?_argument (host : Host) {argument : List Event} (h : IsArgument argument)
    (rest : List Event) : ∃ carried,
      (steps host .nothing).run? (argument ++ rest) = (steps host carried).run? rest := by
  cases h with
  | nothing => exact ⟨.nothing, rfl⟩
  | docString => exact ⟨.docString, rfl⟩
  | table table => exact ⟨.table, run?_table rfl rfl table rest⟩

private theorem run?_steps (host : Host) (carried : Carried) {events : List Event}
    (h : IsSteps events) (rest : List Event) : ∃ after,
      (steps host carried).run? (events ++ rest) = (steps host after).run? rest := by
  induction h generalizing carried with
  | nil => exact ⟨carried, rfl⟩
  | @step keyword name line argument more arg _ ih =>
    obtain ⟨middle, behindArgument⟩ := run?_argument host arg (more ++ rest)
    obtain ⟨after, behindSteps⟩ := ih middle
    refine ⟨after, ?_⟩
    rw [List.cons_append, List.append_assoc, ← behindSteps, ← behindArgument]
    rfl

private theorem run?_examples {control : Control} (takes : control.takesExamples = true)
    {events : List Event} (h : IsExamples events) (rest : List Event) :
    control.run? (events ++ rest) = (examples true).run? rest := by
  induction h generalizing control with
  | one header table =>
    simp only [List.cons_append, run?, next?, open?, takes, if_true, Option.bind_some]
    exact run?_table rfl rfl table rest
  | more header table _ ih =>
    simp only [List.cons_append, run?, next?, open?, takes, if_true, Option.bind_some]
    rw [List.append_assoc, run?_table rfl rfl table, ih rfl]

private theorem run?_elements (control : Control) (complete : control.isComplete = true)
    {events : List Event} (h : IsElements events) (rest : List Event) :
    ∃ after : Control, after.isComplete = true ∧
      control.run? (events ++ rest) = after.run? rest := by
  induction h generalizing control with
  | nil => exact ⟨control, complete, rfl⟩
  | @scenario header body more isSteps _ ih =>
    simp only [List.cons_append, run?, next?, open?, complete, if_true, Option.bind_some]
    obtain ⟨carried, behindSteps⟩ := run?_steps .scenario .noStep isSteps (more ++ rest)
    rw [List.append_assoc, behindSteps]
    exact ih _ rfl
  | @outline header body sections more isSteps isExamples _ ih =>
    simp only [List.cons_append, run?, next?, open?, complete, if_true, Option.bind_some]
    obtain ⟨carried, behindSteps⟩ :=
      run?_steps .outline .noStep isSteps (sections ++ (more ++ rest))
    rw [List.append_assoc, List.append_assoc, behindSteps, run?_examples rfl isExamples]
    exact ih _ rfl

private theorem run?_end {control : Control} (complete : control.isComplete = true) (line : Nat) :
    control.run? [.endOfInput line] = some control := by
  simp [run?, next?, complete]

/-- Every sentence of the grammar has a run. -/
theorem run?_document {events : List Event} (h : IsDocument events) :
    (start.run? events).isSome = true := by
  cases h with
  | empty => rfl
  | feature header line isElements =>
    obtain ⟨after, complete, behind⟩ := run?_elements feature rfl isElements [.endOfInput line]
    simp only [run?, next?, open?, if_true, Option.bind_some]
    rw [behind, run?_end complete]
    rfl
  | @background header b body elements line isSteps isElements =>
    simp only [run?, next?, open?, if_true, Option.bind_some]
    obtain ⟨carried, behindSteps⟩ :=
      run?_steps .background .noStep isSteps (elements ++ [.endOfInput line])
    obtain ⟨after, complete, behind⟩ :=
      run?_elements (steps .background carried) rfl isElements [.endOfInput line]
    rw [behindSteps, behind, run?_end complete]
    rfl

/-! ### From runs to the grammar -/

/-- Elements up to the end of the document. -/
def IsTail (events : List Event) : Prop :=
  ∃ elements line, IsElements elements ∧ events = elements ++ [.endOfInput line]

/-- What may follow the steps of a host: behind those of an outline come its examples. -/
def MayEnd : Host → List Event → Prop
  | .outline, events => ∃ sections tail, IsExamples sections ∧ IsTail tail ∧ events = sections ++ tail
  | _, events => IsTail events

/-- What may still be carried by a step. -/
def MayCarry : Carried → List Event → Prop
  | .nothing, events => IsArgument events
  | .table, events => ∀ event ∈ events, event.isRow = true
  | _, events => events = []

/-- What may follow a control state, up to the end of the document. -/
def Follows : Control → List Event → Prop
  | start, events => IsDocument events
  | feature, events => IsTail events ∨
      ∃ h body tail, IsSteps body ∧ IsTail tail ∧ events = .header .background h :: (body ++ tail)
  | steps host carried, events => ∃ argument body tail,
      MayCarry carried argument ∧ IsSteps body ∧ MayEnd host tail ∧
        events = argument ++ (body ++ tail)
  | examples filled, events => ∃ rows sections tail,
      (∀ event ∈ rows, event.isRow = true) ∧ (rows ≠ [] ∨ filled = true) ∧
        (sections = [] ∨ IsExamples sections) ∧ IsTail tail ∧ events = rows ++ (sections ++ tail)

private theorem mayCarry_nil (carried : Carried) : MayCarry carried [] := by
  cases carried with
  | nothing => exact .nothing
  | table => exact fun _ member => absurd member (by simp)
  | noStep => rfl
  | docString => rfl

/-- Where a section is complete, elements or the end may follow. -/
private theorem follows_tail {control : Control} (complete : control.isComplete = true)
    {events : List Event} (tail : IsTail events) : control.Follows events := by
  cases control with
  | start => cases complete
  | feature => exact .inl tail
  | steps host carried =>
    refine ⟨[], [], events, mayCarry_nil carried, .nil, ?_, rfl⟩
    cases host with
    | outline => cases complete
    | _ => exact tail
  | examples filled =>
    exact ⟨[], [], events, fun _ member => absurd member (by simp), .inr complete, .inl rfl, tail, rfl⟩

/-- Where examples may follow, they may. -/
private theorem follows_examples {control : Control} (takes : control.takesExamples = true)
    {sections tail : List Event} (isExamples : IsExamples sections) (isTail : IsTail tail) :
    control.Follows (sections ++ tail) := by
  cases control with
  | steps host carried =>
    cases host with
    | outline =>
      exact ⟨[], [], _, mayCarry_nil carried, .nil, ⟨sections, tail, isExamples, isTail, rfl⟩, rfl⟩
    | _ => cases takes
  | examples filled =>
    exact ⟨[], sections, tail, fun _ member => absurd member (by simp), .inr takes,
      .inr isExamples, isTail, rfl⟩
  | _ => cases takes

private theorem follows_header {control next : Control} {kind : SectionKind} (h : Header)
    (opens : control.open? kind = some next) {events : List Event} (follows : next.Follows events) :
    control.Follows (.header kind h :: events) := by
  cases kind with
  | feature =>
    obtain ⟨rfl, rfl⟩ : control = start ∧ feature = next := by simpa [open?] using opens
    rcases follows with ⟨elements, line, isElements, rfl⟩ |
      ⟨b, body, _, isSteps, ⟨elements, line, isElements, rfl⟩, rfl⟩
    · exact .feature h line isElements
    · exact .background h b line isSteps isElements
  | background =>
    obtain ⟨rfl, rfl⟩ : control = feature ∧ steps .background .noStep = next := by
      simpa [open?] using opens
    obtain ⟨_, body, tail, rfl, isSteps, isTail, rfl⟩ := follows
    exact .inr ⟨h, body, tail, isSteps, isTail, rfl⟩
  | scenario =>
    obtain ⟨complete, rfl⟩ : control.isComplete = true ∧ steps .scenario .noStep = next := by
      simpa [open?] using opens
    obtain ⟨_, body, _, rfl, isSteps, ⟨elements, line, isElements, rfl⟩, rfl⟩ := follows
    exact follows_tail complete
      ⟨_, line, .scenario h isSteps isElements, by simp [List.append_assoc]⟩
  | outline =>
    obtain ⟨complete, rfl⟩ : control.isComplete = true ∧ steps .outline .noStep = next := by
      simpa [open?] using opens
    obtain ⟨_, body, _, rfl, isSteps,
      ⟨sections, _, isExamples, ⟨elements, line, isElements, rfl⟩, rfl⟩, rfl⟩ := follows
    exact follows_tail complete
      ⟨_, line, .outline h isSteps isExamples isElements, by simp [List.append_assoc]⟩
  | examples =>
    obtain ⟨takes, rfl⟩ : control.takesExamples = true ∧ examples false = next := by
      simpa [open?] using opens
    obtain ⟨rows, sections, tail, all, filled, more, isTail, rfl⟩ := follows
    have table : IsTable rows := ⟨filled.resolve_right (by decide), all⟩
    rcases more with rfl | isExamples
    · exact follows_examples takes (.one h table) isTail
    · have := follows_examples takes (.more h table isExamples) isTail
      simpa [List.append_assoc] using this

private theorem follows_row {control next : Control} (cells : List Text) (line : Nat)
    (moves : control.row? = some next) {events : List Event} (follows : next.Follows events) :
    control.Follows (.row cells line :: events) := by
  have row_cons {rows : List Event} (all : ∀ event ∈ rows, event.isRow = true) :
      ∀ event ∈ Event.row cells line :: rows, event.isRow = true := by
    simpa [Event.isRow] using all
  cases control with
  | steps host carried =>
    have toTable : (carried = .nothing ∨ carried = .table) ∧ next = steps host .table := by
      cases carried <;> simp_all [row?]
    obtain ⟨carries, rfl⟩ := toTable
    obtain ⟨rows, body, tail, all, isSteps, ends, rfl⟩ := follows
    refine ⟨.row cells line :: rows, body, tail, ?_, isSteps, ends, rfl⟩
    rcases carries with rfl | rfl
    · exact .table ⟨by simp, row_cons all⟩
    · exact row_cons all
  | examples filled =>
    obtain rfl : examples true = next := by simpa [row?] using moves
    obtain ⟨rows, sections, tail, all, _, more, isTail, rfl⟩ := follows
    exact ⟨.row cells line :: rows, sections, tail, row_cons all, .inl (by simp), more, isTail, rfl⟩
  | _ => cases moves

/-- A step of the control state, read backwards: what may follow gets one event longer. -/
private theorem follows_cons {control next : Control} {event : Event} (content : event.isContent = true)
    (inside : event.isEnd = false) (moves : control.next? event = some next) {events : List Event}
    (follows : next.Follows events) : control.Follows (event :: events) := by
  cases event with
  | comment => cases content
  | tag => cases content
  | header kind h => exact follows_header h moves follows
  | row cells line => exact follows_row cells line moves follows
  | step keyword name line =>
    cases control with
    | steps host carried =>
      obtain rfl : steps host .nothing = next := by simpa [next?] using moves
      obtain ⟨argument, body, tail, isArgument, isSteps, ends, rfl⟩ := follows
      exact ⟨[], _, tail, mayCarry_nil carried, .step keyword name line isArgument isSteps, ends,
        by simp [List.append_assoc]⟩
    | _ => cases moves
  | docString text line =>
    cases control with
    | steps host carried =>
      cases carried with
      | nothing =>
        obtain rfl : steps host .docString = next := by simpa [next?] using moves
        obtain ⟨_, body, tail, rfl, isSteps, ends, rfl⟩ := follows
        exact ⟨[.docString text line], body, tail, .docString text line, isSteps, ends, rfl⟩
      | _ => cases moves
    | _ => cases moves
  | endOfInput line => cases inside

/-- Everything that has a run up to the end may follow. -/
theorem follows_of_run? {control : Control} {body : List Event} {line : Nat}
    (content : ∀ event ∈ body, event.isContent = true) (inside : ∀ event ∈ body, event.isEnd = false)
    (runs : (control.run? (body ++ [.endOfInput line])).isSome = true) :
    control.Follows (body ++ [.endOfInput line]) := by
  induction body generalizing control with
  | nil =>
    by_cases ends : control = start ∨ control.isComplete = true
    · rcases ends with rfl | complete
      · exact .empty line
      · exact follows_tail complete ⟨[], line, .nil, rfl⟩
    · simp [run?, next?, ends] at runs
  | cons event body ih =>
    cases moves : control.next? event with
    | none => simp [run?, moves] at runs
    | some next =>
      refine follows_cons (content _ List.mem_cons_self) (inside _ List.mem_cons_self) moves ?_
      refine ih (fun e member => content e (List.mem_cons_of_mem _ member))
        (fun e member => inside e (List.mem_cons_of_mem _ member)) ?_
      simpa [run?, moves] using runs

end Control

/-- Up to the end of the document something always meets the tags, so none is refused exactly when
all are taken. -/
theorem noTagRefused_iff_tagsTaken (body : List Event) (line : Nat) :
    NoTagRefused (body ++ [Event.endOfInput line]) ↔ TagsTaken (body ++ [Event.endOfInput line]) := by
  refine forall_congr' fun before => forall_congr' fun name => forall_congr' fun at_ =>
    forall_congr' fun after => forall_congr' fun split => ?_
  have last : (Event.endOfInput line) ∈ after := by
    have ends : (before ++ .tag name at_ :: after).getLast? = some (.endOfInput line) := by
      rw [← split, List.getLast?_concat]
    cases after with
    | nil => simp at ends
    | cons event rest =>
      rw [List.getLast?_append, List.getLast?_cons_cons] at ends
      exact List.mem_of_getLast? (by simpa using ends)
  obtain ⟨event, found⟩ : ∃ event, after.find? Event.meetsTags = some event :=
    Option.isSome_iff_exists.mp (List.find?_isSome.mpr ⟨_, last, rfl⟩)
  simp [TagsMet, found]

/-- An assembly, whatever its filter is, accepts every event of a sequence that ends in its only end of
input exactly when the sequence without comments and tags is a document of the grammar, and the next
event that tags matter to behind each tag is a header that takes it. -/
theorem start_accepts_iff (filter : Filter) (body : List Event) (line : Nat)
    (inside : ∀ event ∈ body, event.isEnd = false) :
    (∀ outcome ∈ (Assembly.start filter).acceptEach (body ++ [Event.endOfInput line]),
        outcome.fault? = none) ↔
      IsDocument ((body ++ [Event.endOfInput line]).filter Event.isContent) ∧
        TagsTaken (body ++ [Event.endOfInput line]) := by
  have accepted := (Assembly.sound_start filter).acceptEach_iff (body ++ [Event.endOfInput line])
  have untagged : (Assembly.start filter).tags ≠ [] ↔ False := by simp [Assembly.start]
  rw [untagged, false_imp_iff, true_and, noTagRefused_iff_tagsTaken] at accepted
  rw [accepted]
  refine and_congr_left fun _ => ?_
  change (Control.start.run? _).isSome = true ↔ _
  rw [← Control.run?_filter_isContent]
  refine ⟨fun runs => ?_, Control.run?_document⟩
  have filtered : (body ++ [Event.endOfInput line]).filter Event.isContent =
      body.filter Event.isContent ++ [Event.endOfInput line] := by
    simp [Event.isContent]
  rw [filtered] at runs ⊢
  refine Control.follows_of_run? (fun event member => ?_) (fun event member => ?_) runs
  · exact (List.mem_filter.mp member).2
  · exact inside event (List.mem_filter.mp member).1

/-- A tagged outline: its tag waits through a row and is taken by the next outline. -/
theorem start_accepts_iff_outlines :
    let body : List Event := [.header .feature ⟨[], [], [], 1⟩, .header .outline ⟨[], [], [], 2⟩,
      .step [] [] 3, .header .examples ⟨[], [], [], 4⟩, .tag ['@', 'a'] 5, .row [] 6,
      .comment [] 7, .header .outline ⟨[], [], [], 8⟩, .header .examples ⟨[], [], [], 9⟩, .row [] 10]
    (∀ event ∈ body, event.isEnd = false) ∧
      IsDocument ((body ++ [Event.endOfInput 11]).filter Event.isContent) ∧
        TagsTaken (body ++ [Event.endOfInput 11]) := by
  intro body
  have inside : ∀ event ∈ body, event.isEnd = false := by decide
  exact ⟨inside, (start_accepts_iff .empty body 11 inside).mp (by decide)⟩

end FeatureFile
