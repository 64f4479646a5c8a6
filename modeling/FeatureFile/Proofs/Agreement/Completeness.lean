import FeatureFile.Proofs.Agreement.Leading
/-!
The readers take everything an assembly accepts, as long as every tag leads to the header that takes it.
-/

namespace FeatureFile

/-- From a control state on, behind tags or not, the blocks are accepted up to the end of the document,
and no row or doc string stands between a tag and its header. -/
def Control.Admits (control : Control) (tagged : Bool) : List Block → Prop
  | [] => tagged = false ∧ (control = .start ∨ control.isComplete = true)
  | .blank :: bs | .comment _ _ :: bs => control.Admits tagged bs
  | .tags _ _ _ :: bs => control.Admits true bs
  | .header kind _ :: bs =>
    (tagged = true → kind ≠ .background) ∧ ∃ next, control.open? kind = some next ∧ next.Admits false bs
  | .step _ _ _ :: bs =>
    tagged = false ∧ ∃ host carried, control = .steps host carried ∧
      (Control.steps host .nothing).Admits false bs
  | .row _ _ :: bs => tagged = false ∧ ∃ next, control.row? = some next ∧ next.Admits false bs
  | .docString _ _ :: bs =>
    tagged = false ∧ ∃ host, control = .steps host .nothing ∧
      (Control.steps host .docString).Admits false bs

namespace Control

variable {control : Control} {tagged : Bool} {bs : List Block}

private theorem run?_tags (control : Control) (names : List Text) (line : Nat) (events : List Event) :
    control.run? (names.map (.tag · line) ++ events) = control.run? events := by
  induction names with
  | nil => rfl
  | cons name names ih => simpa [run?, next?] using ih

private theorem headerLeads_tags (names : List Text) (line : Nat) (events : List Event) :
    HeaderLeads (names.map (.tag · line) ++ events) ↔ HeaderLeads events := by
  induction names with
  | nil => rfl
  | cons name names ih => simpa [headerLeads_cons, Event.isContent] using ih

private theorem tagsLead_of_tags (names : List Text) (line : Nat) {events : List Event}
    (all : TagsLead (names.map (.tag · line) ++ events)) : TagsLead events := by
  induction names with
  | nil => exact all
  | cons name names ih =>
    rw [List.map_cons, List.cons_append, tagsLead_cons] at all
    exact ih all.2

/-- In front of an event that takes no tags none waits. -/
private theorem untagged_of_leads {event : Event} {events : List Event}
    (content : event.isContent = true) (refuses : event.takesTags = false)
    (leads : tagged = true → HeaderLeads (event :: events)) : tagged = false := by
  cases tagged with
  | false => rfl
  | true => simpa [headerLeads_cons, content, refuses] using leads rfl

/-- What is accepted event by event is admitted block by block. -/
theorem admits_of_run? {line : Nat}
    (runs : (control.run? (bs.flatMap Block.events ++ [.endOfInput line])).isSome = true)
    (leads : tagged = true → HeaderLeads (bs.flatMap Block.events ++ [.endOfInput line]))
    (all : TagsLead (bs.flatMap Block.events ++ [.endOfInput line])) : control.Admits tagged bs := by
  -- The state and whether tags wait change from block to block; the conditions on tags are taken
  -- apart along with the run.
  induction bs generalizing control tagged with
  | nil =>
    refine ⟨by simpa [headerLeads_cons, Event.isContent, Event.takesTags] using leads, ?_⟩
    by_contra open_
    simp [run?, next?, open_] at runs
  | cons b bs ih =>
    rw [List.flatMap_cons, List.append_assoc] at runs leads all
    cases b with
    | blank => exact ih runs leads all
    | comment text at_ =>
      refine ih (by simpa [Block.events, run?, next?] using runs) ?_
        (by simpa [Block.events, tagsLead_cons] using all)
      simpa [Block.events, headerLeads_cons, Event.isContent] using leads
    | tags first others at_ =>
      rw [Block.events, run?_tags] at runs
      have header := ((tagsLead_cons ..).mp all).1 first at_ rfl
      exact ih runs (fun _ => (headerLeads_tags others at_ _).mp header) (tagsLead_of_tags _ at_ all)
    | header kind h =>
      simp only [Block.events, List.singleton_append, run?, next?] at runs
      cases opens : control.open? kind with
      | none => simp [opens] at runs
      | some next =>
        rw [opens] at runs
        refine ⟨?_, next, opens, ih runs (by simp) ?_⟩
        · simpa [Block.events, headerLeads_cons, Event.isContent, Event.takesTags] using leads
        · simpa [Block.events, tagsLead_cons] using all
    | step k name at_ =>
      have untagged := untagged_of_leads rfl rfl leads
      have others : TagsLead _ := ((tagsLead_cons ..).mp all).2
      simp only [Block.events, List.singleton_append, run?, next?] at runs
      cases control with
      | steps host carried => exact ⟨untagged, host, carried, rfl, ih runs (by simp) others⟩
      | _ => simp at runs
    | row cells at_ =>
      have untagged := untagged_of_leads rfl rfl leads
      have others : TagsLead _ := ((tagsLead_cons ..).mp all).2
      simp only [Block.events, List.singleton_append, run?, next?] at runs
      cases moves : control.row? with
      | none => simp [moves] at runs
      | some next =>
        rw [moves] at runs
        exact ⟨untagged, next, moves, ih runs (by simp) others⟩
    | docString content at_ =>
      have untagged := untagged_of_leads rfl rfl leads
      have others : TagsLead _ := ((tagsLead_cons ..).mp all).2
      simp only [Block.events, List.singleton_append, run?, next?] at runs
      split at runs
      next host => exact ⟨untagged, host, rfl, ih runs (by simp) others⟩
      next => simp at runs

end Control

namespace BlockReader

/-- The blocks a reader leaves, if it takes some. -/
def leaves (p : BlockReader) (bs : List Block) : Option (List Block) :=
  (p.read bs).map Prod.snd

variable {p q : BlockReader} {bs left : List Block}

theorem leaves_andThen (p q : BlockReader) (bs : List Block) :
    (p.andThen q).leaves bs = (p.leaves bs).bind q.leaves := by
  cases found : p.read bs <;> simp [leaves, andThen, found, Function.comp_def]

theorem leaves_orElse (p q : BlockReader) (bs : List Block) :
    (p.orElse q).leaves bs = (p.leaves bs).or (q.leaves bs) := by
  cases found : p.read bs <;> simp [leaves, orElse, found]

theorem leaves_maybe (p : BlockReader) (bs : List Block) :
    p.maybe.leaves bs = some ((p.leaves bs).getD bs) := by
  cases found : p.read bs <;> simp [leaves, maybe, found]

theorem leaves_one (shape : Block.Shape) (b : Block) (bs : List Block) :
    (one shape).leaves (b :: bs) = if b.shape = shape then some bs else none := by
  unfold leaves one
  split <;> simp_all

theorem leaves_ignorables (bs : List Block) :
    ignorable.many.leaves bs = some (bs.dropWhile Block.isIgnorable) := by
  rw [leaves, ignorables_read]
  rfl

theorem leaves_tags (bs : List Block) : tags.leaves bs = some (bs.dropWhile Block.mayLead) := by
  rw [leaves, tags_read]
  rfl

/-- What holds in front of every round holds behind the last one, where the reader fails. -/
theorem leaves_many (progresses : p.Progresses) {P Q : List Block → Prop}
    (round : ∀ bs, P bs → (p.leaves bs = none ∧ Q bs) ∨ ∃ left, p.leaves bs = some left ∧ P left)
    (holds : P bs) : ∃ left, p.many.leaves bs = some left ∧ Q left := by
  -- The induction is on the blocks that are left: every round takes some.
  induction size : bs.length using Nat.strong_induction_on generalizing bs with
  | _ n ih =>
  subst size
  show ∃ left, some (p.rounds bs).2 = some left ∧ Q left
  rcases round bs holds with ⟨fails, last⟩ | ⟨left, takes, more⟩
  · rw [leaves, Option.map_eq_none_iff] at fails
    exact ⟨_, rfl, by simpa [rounds_none fails] using last⟩
  · obtain ⟨⟨used, left⟩, read, rfl⟩ := Option.map_eq_some_iff.mp takes
    rw [rounds_some read (progresses _ _ _ read)]
    exact ih _ (progresses.length_lt read) more rfl

end BlockReader

/-- The first block other than blank lines and comments has none of these shapes. -/
def Block.Lacks (shapes : List Block.Shape) (bs : List Block) : Prop :=
  ∀ b, (bs.dropWhile isIgnorable).head? = some b → b.shape ∉ shapes

/-- The shapes of blocks that belong to a section. -/
def Block.bodyShapes : List Block.Shape :=
  [.row, .docString, .step]

namespace Control

open Block (Lacks bodyShapes)

variable {control : Control} {tagged : Bool} {bs : List Block}

theorem Admits.skip (admits : control.Admits tagged bs) :
    control.Admits tagged (bs.dropWhile Block.isIgnorable) := by
  induction bs with
  | nil => exact admits
  | cons b bs ih =>
    cases b with
    | blank | comment => exact ih admits
    | _ => exact admits

/-- What comes where no step and no argument does: the end, or a header behind its tags. -/
inductive Goes (control : Control) (bs : List Block) : Prop where
  | atEnd (nothing : bs.dropWhile Block.mayLead = []) (ignorable : bs.dropWhile Block.isIgnorable = [])
      (ends : control = .start ∨ control.isComplete = true)
  | header {kind : SectionKind} {h : Header} {rest : List Block} {next : Control}
      (found : bs.dropWhile Block.mayLead = .header kind h :: rest) (opens : control.open? kind = some next)
      (admits : next.Admits false rest)
      (bare : kind = .background → bs.dropWhile Block.isIgnorable = .header kind h :: rest)

private theorem Admits.goes_tagged (admits : control.Admits true bs) :
    ∃ kind h rest next, bs.dropWhile Block.mayLead = .header kind h :: rest ∧ kind ≠ .background ∧
      control.open? kind = some next ∧ next.Admits false rest := by
  induction bs with
  | nil => cases admits.1
  | cons b bs ih =>
    cases b with
    | blank | comment | tags => exact ih admits
    | header kind h =>
      obtain ⟨other, next, opens, admits⟩ := admits
      exact ⟨kind, h, bs, next, rfl, other rfl, opens, admits⟩
    | step | row | docString => cases admits.1

theorem Admits.goes (admits : control.Admits false bs) (lacks : Lacks bodyShapes bs) :
    control.Goes bs := by
  induction bs with
  | nil => exact .atEnd rfl rfl admits.2
  | cons b bs ih =>
    cases b with
    | blank | comment =>
      cases ih admits lacks with
      | atEnd nothing ignorable ends => exact .atEnd nothing ignorable ends
      | header found opens admits bare => exact .header found opens admits bare
    | tags first others line =>
      have behind : control.Admits true bs := admits
      obtain ⟨kind, h, rest, next, found, other, opens, admits⟩ := behind.goes_tagged
      exact .header found opens admits fun same => absurd same other
    | header kind h =>
      obtain ⟨-, next, opens, admits⟩ := admits
      exact .header rfl opens admits fun _ => rfl
    | step | row | docString => exact absurd (by simp [bodyShapes, Block.shape]) (lacks _ rfl)

/-- A state that refuses blocks of some shapes has none of them next. -/
theorem Admits.lacks {shapes : List Block.Shape} (admits : control.Admits false bs)
    (refuses : ∀ b rest, control.Admits false (b :: rest) → b.shape ∉ shapes) : Lacks shapes bs := by
  intro b head
  have skipped := admits.skip
  obtain ⟨rest, found⟩ := List.head?_eq_some_iff.mp head
  rw [found] at skipped
  exact refuses b rest skipped

/-- An examples section without a row has a row next. -/
theorem Admits.row_next (admits : (examples false).Admits false bs) : ∃ cells line rest,
    bs.dropWhile Block.isIgnorable = .row cells line :: rest ∧ (examples true).Admits false rest := by
  induction bs with
  | nil => simp [Admits, isComplete] at admits
  | cons b bs ih =>
    have closed (kind : SectionKind) : (examples false).open? kind = none := by
      cases kind <;> rfl
    cases b with
    | blank | comment => exact ih admits
    | tags first others line =>
      have behind : (examples false).Admits true bs := admits
      obtain ⟨kind, _, _, next, _, _, opens, _⟩ := behind.goes_tagged
      cases (closed kind).symm.trans opens
    | header kind h =>
      obtain ⟨-, next, opens, -⟩ := admits
      cases (closed kind).symm.trans opens
    | row cells line =>
      obtain ⟨-, next, moves, admits⟩ := admits
      cases moves
      exact ⟨cells, line, bs, rfl, admits⟩
    | step | docString => simp [Admits] at admits

end Control

namespace BlockReader

open Block (Lacks bodyShapes)
open Control (Admits)

variable {control : Control} {host : Host} {carried : Carried} {bs : List Block} {p : BlockReader}

/-! ### Steps -/

/-- Rows, as long as there are any. -/
theorem rows_leaves (loop : control.row? = some control) (admits : control.Admits false bs) :
    ∃ left, (ignorable.many.andThen (one .row)).many.leaves bs = some left ∧
      control.Admits false left ∧ Lacks [.row] left := by
  refine leaves_many (.andThen_right _ (progresses_one _)) (fun bs admits => ?_) admits
  have skipped := admits.skip
  rw [leaves_andThen, leaves_ignorables, Option.bind_some]
  cases found : bs.dropWhile Block.isIgnorable with
  | nil => exact .inl ⟨rfl, admits, by simp [Lacks, found]⟩
  | cons b rest =>
    rw [found] at skipped
    rw [leaves_one]
    cases b with
    | row cells line =>
      obtain ⟨-, next, moves, admits⟩ := skipped
      cases loop.symm.trans moves
      exact .inr ⟨rest, rfl, admits⟩
    | _ => exact .inl ⟨rfl, admits, by simp [Lacks, found, Block.shape]⟩

/-- What a step carries, if it carries something. -/
theorem argument_leaves (admits : (Control.steps host .nothing).Admits false bs) :
    ∃ left carried,
      (ignorable.many.andThen (table.orElse (one .docString))).maybe.leaves bs = some left ∧
      (Control.steps host carried).Admits false left ∧ Lacks [.row, .docString] left := by
  have skipped := admits.skip
  rw [leaves_maybe, leaves_andThen, leaves_ignorables, Option.bind_some, leaves_orElse]
  cases found : bs.dropWhile Block.isIgnorable with
  | nil => exact ⟨bs, .nothing, rfl, admits, by simp [Lacks, found]⟩
  | cons b rest =>
    rw [found] at skipped
    rw [table, leaves_andThen, leaves_one, leaves_one]
    cases b with
    | row cells line =>
      obtain ⟨-, _, moves, admits⟩ := skipped
      cases moves
      obtain ⟨left, rows, admits', lacks⟩ := rows_leaves rfl admits
      -- The rows have been read to their end, and a state behind a table admits no doc string.
      refine ⟨left, .table, by simp [Block.shape, rows], admits', fun b head mem => ?_⟩
      have noDocString : Lacks [.docString] left := admits'.lacks fun b rest admits => by
        cases b <;> simp_all [Admits, Block.shape]
      rcases List.mem_cons.mp mem with row | docString
      · exact lacks b head (by simp [row])
      · exact noDocString b head docString
    | docString content line =>
      obtain ⟨-, _, same, admits⟩ := skipped
      cases same
      refine ⟨rest, .docString, rfl, admits, admits.lacks fun b rest admits => ?_⟩
      cases b <;> simp_all [Admits, Block.shape, Control.row?]
    | _ => exact ⟨bs, .nothing, rfl, admits, by simp [Lacks, found, Block.shape]⟩

theorem steps_leaves (admits : (Control.steps host .noStep).Admits false bs) :
    ∃ left, steps.leaves bs = some left ∧
      ∃ carried, (Control.steps host carried).Admits false left ∧ Lacks bodyShapes left := by
  have lacks : Lacks [.row, .docString] bs := admits.lacks fun b rest admits => by
    cases b <;> simp_all [Admits, Block.shape, Control.row?]
  refine leaves_many (.andThen_right _ progresses_step)
    (P := fun bs => ∃ carried, (Control.steps host carried).Admits false bs ∧
      Lacks [.row, .docString] bs)
    ?_ ⟨.noStep, admits, lacks⟩
  rintro bs ⟨carried, admits, lacks⟩
  have skipped := admits.skip
  rw [leaves_andThen, leaves_ignorables, Option.bind_some]
  cases found : bs.dropWhile Block.isIgnorable with
  | nil => exact .inl ⟨rfl, carried, admits, by simp [Lacks, found]⟩
  | cons b rest =>
    rw [found] at skipped
    have noArgument := lacks b (by rw [found]; rfl)
    rw [step, leaves_andThen, leaves_one]
    cases b with
    | step k name line =>
      obtain ⟨-, _, _, same, admits⟩ := skipped
      cases same
      obtain ⟨left, carried, takes, admits', lacks'⟩ := argument_leaves admits
      exact .inr ⟨left, by simpa [Block.shape] using takes, carried, admits', lacks'⟩
    | row | docString => simp [Block.shape] at noArgument
    | _ => exact .inl ⟨rfl, carried, admits, by simp [Lacks, found, bodyShapes, Block.shape]⟩

/-! ### Sections -/

variable {kind kind' : SectionKind} {h : Header} {rest : List Block}

theorem leaves_tagged (found : bs.dropWhile Block.mayLead = .header kind' h :: rest) :
    (tagged kind p).leaves bs = if kind' = kind then p.leaves rest else none := by
  rw [tagged, leaves_andThen, leaves_tags, Option.bind_some, found, leaves_andThen, leaves_one]
  by_cases same : kind' = kind <;> simp [Block.shape, same]

theorem leaves_tagged_nil (nothing : bs.dropWhile Block.mayLead = []) :
    (tagged kind p).leaves bs = none := by
  rw [tagged, leaves_andThen, leaves_tags, Option.bind_some, nothing]
  rfl

theorem rows_of_examples_leave (admits : (Control.examples false).Admits false bs) :
    ∃ left, (ignorable.many.andThen table).leaves bs = some left ∧
      (Control.examples true).Admits false left ∧ Lacks bodyShapes left := by
  obtain ⟨cells, line, rest, found, admits⟩ := admits.row_next
  obtain ⟨left, rows, admits, noRow⟩ := rows_leaves rfl admits
  refine ⟨left, ?_, admits, fun b head mem => ?_⟩
  · rw [leaves_andThen, leaves_ignorables, Option.bind_some, found, table, leaves_andThen, leaves_one]
    simpa [Block.shape] using rows
  · have noStep : Lacks [.docString, .step] left := admits.lacks fun b rest admits => by
      cases b <;> simp_all [Admits, Block.shape]
    rcases List.mem_cons.mp mem with row | other
    · exact noRow b head (by simp [row])
    · exact noStep b head other

/-- The examples of an outline, as long as there are any. -/
theorem sections_leave (admits : (Control.steps .outline carried).Admits false bs)
    (lacks : Lacks bodyShapes bs) :
    ∃ left, (examples.andThen examples.many).leaves bs = some left ∧
      ((Control.examples true).Admits false left ∧ Lacks bodyShapes left) ∧
        ∀ h rest, left.dropWhile Block.mayLead ≠ .header .examples h :: rest := by
  -- An outline may not end here, so the header that comes opens examples.
  have first : ∃ left, examples.leaves bs = some left ∧ (Control.examples true).Admits false left ∧
      Lacks bodyShapes left := by
    cases admits.goes lacks with
    | atEnd _ _ ends => simp [Control.isComplete] at ends
    | @header kind h rest next found opens admits =>
      obtain ⟨rfl, rfl⟩ : kind = .examples ∧ next = .examples false := by
        cases kind <;> simp_all [Control.open?, Control.isComplete, Control.takesExamples]
      obtain ⟨left, rows, behind⟩ := rows_of_examples_leave admits
      exact ⟨left, by simpa [examples, leaves_tagged found] using rows, behind⟩
  obtain ⟨middle, takes, behind⟩ := first
  rw [leaves_andThen, takes, Option.bind_some]
  refine leaves_many (p := examples) (progresses_tagged _ _)
    (P := fun bs => (Control.examples true).Admits false bs ∧ Lacks bodyShapes bs) ?_ behind
  rintro bs ⟨admits, lacks⟩
  cases admits.goes lacks with
  | atEnd nothing =>
    exact .inl ⟨leaves_tagged_nil nothing, ⟨admits, lacks⟩,
      fun h rest found => by simp [nothing] at found⟩
  | @header kind h rest next found opens behind =>
    rw [examples, leaves_tagged found]
    by_cases same : kind = .examples
    · subst same
      obtain rfl : Control.examples false = next := by
        simpa [Control.open?, Control.takesExamples] using opens
      obtain ⟨left, rows, behind⟩ := rows_of_examples_leave behind
      exact .inr ⟨left, by simpa using rows, behind⟩
    · refine .inl ⟨if_neg same, ⟨admits, lacks⟩, fun h' rest' found' => ?_⟩
      rw [found] at found'
      cases found'
      exact same rfl

/-- Nothing more, or a scenario or an outline behind its tags. -/
inductive AtElement (bs : List Block) : Prop where
  | atEnd (nothing : bs.dropWhile Block.mayLead = []) (ignorable : bs.dropWhile Block.isIgnorable = [])
  | scenario {h : Header} {rest : List Block} (found : bs.dropWhile Block.mayLead = .header .scenario h :: rest)
      (admits : (Control.steps .scenario .noStep).Admits false rest)
  | outline {h : Header} {rest : List Block} (found : bs.dropWhile Block.mayLead = .header .outline h :: rest)
      (admits : (Control.steps .outline .noStep).Admits false rest)

theorem atElement_of_goes (goes : control.Goes bs)
    (element : ∀ {kind h rest}, bs.dropWhile Block.mayLead = .header kind h :: rest →
      control.open? kind ≠ none → kind = .scenario ∨ kind = .outline) : AtElement bs := by
  cases goes with
  | atEnd nothing ignorable => exact .atEnd nothing ignorable
  | @header kind h rest next found opens admits =>
    rcases element found (by simp [opens]) with rfl | rfl
    · obtain ⟨-, rfl⟩ : _ ∧ Control.steps .scenario .noStep = next := by
        simpa [Control.open?] using opens
      exact .scenario found admits
    · obtain ⟨-, rfl⟩ : _ ∧ Control.steps .outline .noStep = next := by simpa [Control.open?] using opens
      exact .outline found admits

theorem elements_leave (at_ : AtElement bs) :
    ∃ left, (outline.orElse scenario).many.leaves bs = some left ∧
      left.dropWhile Block.isIgnorable = [] := by
  refine leaves_many (p := outline.orElse scenario)
    ((progresses_tagged _ _).orElse (progresses_tagged _ _)) (P := AtElement) ?_ at_
  rintro bs at_
  rw [leaves_orElse]
  cases at_ with
  | atEnd nothing ignorable =>
    exact .inl ⟨by simp [outline, scenario, leaves_tagged_nil nothing], ignorable⟩
  | scenario found admits =>
    obtain ⟨left, takes, carried, admits, lacks⟩ := steps_leaves admits
    refine .inr ⟨left, by simpa [outline, scenario, leaves_tagged found] using takes, ?_⟩
    refine atElement_of_goes (admits.goes lacks) fun {kind _ _} _ opens => ?_
    cases kind <;> simp_all [Control.open?, Control.takesExamples]
  | outline found admits =>
    obtain ⟨middle, takes, carried, admits, lacks⟩ := steps_leaves admits
    obtain ⟨left, sections, ⟨admits, lacks⟩, last⟩ := sections_leave admits lacks
    have whole : outline.leaves bs = some left := by
      rw [outline, leaves_tagged found, if_pos rfl, leaves_andThen, takes, Option.bind_some, sections]
    refine .inr ⟨left, by simp [whole], ?_⟩
    refine atElement_of_goes (admits.goes lacks) fun {kind h rest} found opens => ?_
    have other : kind ≠ .examples := by
      rintro rfl
      exact last h rest found
    cases kind <;> simp_all [Control.open?]

/-! ### Documents -/

theorem background_leaves (admits : Control.feature.Admits false bs) :
    ∃ left, background.maybe.leaves bs = some left ∧ AtElement left := by
  have lacks : Lacks bodyShapes bs := admits.lacks fun b rest admits => by
    cases b <;> simp_all [Admits, bodyShapes, Block.shape, Control.row?]
  have goes := admits.goes lacks
  by_cases found : ∃ h rest, bs.dropWhile Block.isIgnorable = .header .background h :: rest
  · obtain ⟨h, rest, found⟩ := found
    have skipped := admits.skip
    rw [found] at skipped
    obtain ⟨-, next, opens, admits⟩ := skipped
    obtain rfl : Control.steps .background .noStep = next := by simpa [Control.open?] using opens
    obtain ⟨left, takes, carried, admits, lacks⟩ := steps_leaves admits
    refine ⟨left, ?_, atElement_of_goes (admits.goes lacks) fun {kind _ _} _ opens => ?_⟩
    · rw [leaves_maybe, background, leaves_andThen, leaves_ignorables, Option.bind_some, found,
        leaves_andThen, leaves_one]
      simp [Block.shape, takes]
    · cases kind <;> simp_all [Control.open?, Control.takesExamples]
  · have fails : background.leaves bs = none := by
      rw [background, leaves_andThen, leaves_ignorables, Option.bind_some, leaves_andThen]
      cases shape : bs.dropWhile Block.isIgnorable with
      | nil => rfl
      | cons b rest =>
        rw [leaves_one, if_neg fun same => ?_, Option.bind_none]
        obtain ⟨h, rfl⟩ := Block.exists_header same
        exact found ⟨h, rest, shape⟩
    refine ⟨bs, by simp [leaves_maybe, fails], ?_⟩
    cases goes with
    | atEnd nothing ignorable => exact .atEnd nothing ignorable
    | @header kind h rest next lead opens admits bare =>
      refine atElement_of_goes (.header lead opens admits bare) fun {kind' _ _} lead' opens' => ?_
      rw [lead] at lead'
      cases lead'
      have other : kind ≠ .background := fun same => found ⟨h, rest, by subst same; exact bare rfl⟩
      cases kind <;> simp_all [Control.open?, Control.takesExamples]

theorem feature_leaves (admits : Control.start.Admits false bs) :
    ∃ left, feature.maybe.leaves bs = some left ∧ left.dropWhile Block.isIgnorable = [] := by
  have lacks : Lacks bodyShapes bs := admits.lacks fun b rest admits => by
    cases b <;> simp_all [Admits, bodyShapes, Block.shape, Control.row?]
  cases admits.goes lacks with
  | atEnd nothing ignorable =>
    exact ⟨bs, by simp [leaves_maybe, feature, leaves_tagged_nil nothing], ignorable⟩
  | @header kind h rest next found opens admits =>
    obtain ⟨rfl, rfl⟩ : kind = .feature ∧ Control.feature = next := by
      cases kind <;> simp_all [Control.open?, Control.isComplete, Control.takesExamples]
    obtain ⟨middle, takes, at_⟩ := background_leaves admits
    obtain ⟨left, elements, atEnd⟩ := elements_leave at_
    refine ⟨left, ?_, atEnd⟩
    rw [leaves_maybe, feature, leaves_tagged found, if_pos rfl, leaves_andThen, takes, Option.bind_some,
      elements, Option.getD_some]

/-- The reader of documents leaves nothing of what is admitted. -/
theorem document_read (admits : Control.start.Admits false bs) : document.read bs = some (bs, []) := by
  obtain ⟨left, takes, atEnd⟩ := feature_leaves admits.skip
  have leaves : document.leaves bs = some [] := by
    rw [document, leaves_andThen, leaves_ignorables, Option.bind_some, leaves_andThen, takes,
      Option.bind_some, leaves_ignorables, atEnd]
  obtain ⟨⟨used, _⟩, read, rfl⟩ := Option.map_eq_some_iff.mp leaves
  have split := document.splits read
  rw [List.append_nil] at split
  rwa [← split] at read

end BlockReader

end FeatureFile
