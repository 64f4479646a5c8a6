import FeatureFile.Proofs.Agreement.Backends
import FeatureFile.Proofs.Document.Delivery
import FeatureFile.Proofs.Grammar.Ranking
/-!
Whatever the shipped grammar matches is a document. For each rule it is known in which control
states an assembly takes the events of a match, whatever was matched, and which state it is in
behind them; for a whole document that is the state at the beginning and one in which the document
may end.
-/

namespace FeatureFile

open Stage
open Assembly (Takes)
open Rules (Matches)

/-- What the expression matches leaves plain nodes, and where the first condition holds their events
are taken and the second holds behind them. -/
def Leads (rules : List Rule) (p : Stage) (e : Expr) (q : Stage) : Prop :=
  ∀ c nodes d, Matches rules e c nodes d →
    (∀ node ∈ nodes, node.IsPlain) ∧ Takes p (Node.allEvents nodes) q

/-- Ways to read nodes in a context to which plain nodes do not matter. -/
structure Views (views : (List Node → List Event) → Prop) : Prop where
  nil : ∀ read, views read → read [] = []
  append : ∀ read, views read → ∀ nodes others, (∀ node ∈ nodes, node.IsPlain) →
    read (nodes ++ others) = Node.allEvents nodes ++ read others

/-- The events of what the expression matches, read in a context. -/
def LeadsIn (rules : List Rule) (views : (List Node → List Event) → Prop) (p : Stage) (e : Expr)
    (q : Stage) : Prop :=
  ∀ c nodes d, Matches rules e c nodes d → ∀ read, views read → Takes p (read nodes) q

/-- A node that means something to the context: it may have events, and change how others are
read. -/
def Marks (views : (List Node → List Event) → Prop) (name : String) (p q : Stage) : Prop :=
  ∀ read, views read → ∀ text line children, ∃ events read', views read' ∧ Takes p events q ∧
    ∀ others, read (.mk name text line children :: others) = events ++ read' others

section

variable {rules : List Rule} {p q r : Stage} {a b e : Expr} {name : String}

namespace Leads

theorem mono {s t : Stage} (before : ∀ control tags, s control tags → p control tags)
    (behind : ∀ control tags, q control tags → t control tags) (h : Leads rules p e q) :
    Leads rules s e t := by
  intro c nodes d matched
  obtain ⟨plain, taken⟩ := h c nodes d matched
  exact ⟨plain, taken.mono before behind⟩

theorem literal (text : Text) (p : Stage) : Leads rules p (.literal text) p := by
  intro c nodes d matched
  cases matched
  exact ⟨by simp, .nil p⟩

theorem startOfInput (p : Stage) : Leads rules p .startOfInput p := by
  intro c nodes d matched
  cases matched
  exact ⟨by simp, .nil p⟩

theorem endOfInput (p : Stage) : Leads rules p .endOfInput p := by
  intro c nodes d matched
  cases matched
  exact ⟨by simpa using Node.isPlain_mk (by decide) .., .nil p⟩

theorem seq (first : Leads rules p a q) (second : Leads rules q b r) :
    Leads rules p (.seq a b) r := by
  intro c nodes d matched
  cases matched with
  | seq front back =>
    obtain ⟨plain, taken⟩ := first _ _ _ front
    obtain ⟨plain', taken'⟩ := second _ _ _ back
    refine ⟨List.forall_mem_append.mpr ⟨plain, plain'⟩, ?_⟩
    rw [Node.allEvents_append]
    exact taken.append taken'

theorem choice (first : Leads rules p a q) (second : Leads rules p b q) :
    Leads rules p (.choice a b) q := by
  intro c nodes d matched
  cases matched with
  | choiceFirst _ front => exact first _ _ _ front
  | choiceSecond _ back => exact second _ _ _ back

/-- A condition that the body keeps is kept by its repetition. -/
theorem star (body : Leads rules p a p) : Leads rules p (.star a) p := by
  intro c nodes d matched
  -- The induction is on the derivation, whose expression has to be a variable for that.
  generalize same : Expr.star a = e at matched
  induction matched with
  | starStop => exact ⟨by simp, .nil p⟩
  | starStep first _ _ others =>
    cases same
    obtain ⟨plain, taken⟩ := body _ _ _ first
    obtain ⟨plain', taken'⟩ := others rfl
    refine ⟨List.forall_mem_append.mpr ⟨plain, plain'⟩, ?_⟩
    rw [Node.allEvents_append]
    exact taken.append taken'
  | _ => cases same

theorem opt (body : Leads rules p a q)
    (skipped : ∀ control tags, p control tags → q control tags) : Leads rules p (.opt a) q := by
  intro c nodes d matched
  cases matched with
  | optNone => exact ⟨by simp, (Takes.nil q).mono skipped fun _ _ h => h⟩
  | optSome inside => exact body _ _ _ inside

theorem silent (found : Rules.find? rules name = some ⟨name, .silent, a⟩)
    (body : Leads rules p a q) : Leads rules p (.call name) q := by
  intro c nodes d matched
  cases matched with
  | call found' inside =>
    cases found.symm.trans found'
    exact body _ _ _ inside

/-- A rule that leaves a node, whose events are known from the nodes below it. -/
theorem normal (found : Rules.find? rules name = some ⟨name, .normal, a⟩)
    (plain : name ∈ Node.plainRules)
    (taken : ∀ c nodes d, Matches rules a c nodes d → ∀ text line,
      Takes p (Node.events (.mk name text line nodes)) q) : Leads rules p (.call name) q := by
  intro c nodes d matched
  cases matched with
  | call found' inside =>
    cases found.symm.trans found'
    refine ⟨by simpa [Rule.leaves] using Node.isPlain_mk plain .., ?_⟩
    simpa [Rule.leaves, Node.allEvents] using taken _ _ _ inside _ _

/-- A rule that leaves a node, whose events are known whatever is below it. -/
theorem leaf {kind : RuleKind} (found : Rules.find? rules name = some ⟨name, kind, a⟩)
    (shown : kind ≠ .silent) (plain : name ∈ Node.plainRules)
    (taken : ∀ text line children, Takes p (Node.events (.mk name text line children)) q) :
    Leads rules p (.call name) q := by
  intro c nodes d matched
  cases matched with
  | call found' inside =>
    cases found.symm.trans found'
    cases kind with
    | silent => exact absurd rfl shown
    | normal | atomic =>
      refine ⟨by simpa [Rule.leaves] using Node.isPlain_mk plain .., ?_⟩
      simpa [Rule.leaves, Node.allEvents] using taken _ _ _

end Leads

namespace LeadsIn

variable {views : (List Node → List Event) → Prop}

theorem of_leads (context : Views views) (h : Leads rules p e q) : LeadsIn rules views p e q := by
  intro c nodes d matched read view
  obtain ⟨plain, taken⟩ := h c nodes d matched
  have whole := context.append read view nodes [] plain
  rw [context.nil read view, List.append_nil, List.append_nil] at whole
  rwa [whole]

theorem seq (context : Views views) (first : Leads rules p a q)
    (second : LeadsIn rules views q b r) : LeadsIn rules views p (.seq a b) r := by
  intro c nodes d matched read view
  cases matched with
  | seq front back =>
    obtain ⟨plain, taken⟩ := first _ _ _ front
    rw [context.append read view _ _ plain]
    exact taken.append (second _ _ _ back read view)

theorem mark {kind : RuleKind} (found : Rules.find? rules name = some ⟨name, kind, a⟩)
    (shown : kind ≠ .silent) (marks : Marks views name p q) (others : LeadsIn rules views q b r) :
    LeadsIn rules views p (.seq (.call name) b) r := by
  intro c nodes d matched read view
  cases matched with
  | @seq _ _ _ middle _ _ more front back =>
    cases front with
    | @call _ _ _ _ below found' inside =>
      cases found.symm.trans found'
      have onward : ∀ children,
          Takes p (read (.mk name (c.upTo middle) c.line children :: more)) r := by
        intro children
        obtain ⟨events, read', view', taken, same⟩ :=
          marks read view (c.upTo middle) c.line children
        rw [same]
        exact taken.append (others _ _ _ back read' view')
      cases kind with
      | silent => exact absurd rfl shown
      | normal => exact onward below
      | atomic => exact onward []

end LeadsIn

end

/-- The body of the entry rule with something in the place of the feature. -/
def documentWith (feature : Expr) : Expr :=
  .sequence .startOfInput [.star (.call "ignorable"), feature, .star (.call "ignorable"), .call "sp",
    .endOfInput]

/-! ### Contexts -/

/-- Below a section the header gathers its parts. -/
def sectionViews (kind : SectionKind) (read : List Node → List Event) : Prop :=
  ∃ h, read = Node.sectionEvents kind h

/-- Below a step the keyword comes in front of the text. -/
def stepViews (read : List Node → List Event) : Prop :=
  ∃ line keyword, read = Node.stepEvents line keyword

theorem views_section (kind : SectionKind) : Views (sectionViews kind) where
  nil := by
    rintro _ ⟨h, rfl⟩
    rfl
  append := by
    rintro _ ⟨h, rfl⟩ nodes others plain
    exact Node.sectionEvents_append plain kind h others

theorem views_step : Views stepViews where
  nil := by
    rintro _ ⟨line, keyword, rfl⟩
    rfl
  append := by
    rintro _ ⟨line, keyword, rfl⟩ nodes others plain
    exact Node.stepEvents_append plain line keyword others

theorem marks_stepKeyword (p : Stage) : Marks stepViews "step_keyword" p p := by
  rintro _ ⟨line, before, rfl⟩ text _ children
  exact ⟨[], _, ⟨line, text, rfl⟩, .nil p, fun _ => rfl⟩

theorem marks_stepText (host : Host) :
    Marks stepViews "text" (untagged (Control.hosts host))
      (untagged (· = .steps host .nothing)) := by
  rintro _ ⟨line, keyword, rfl⟩ text _ children
  exact ⟨_, _, ⟨line, keyword, rfl⟩, .step host keyword text line, fun _ => rfl⟩

theorem marks_keyword (kind : SectionKind) (p : Stage) :
    Marks (sectionViews kind) kind.keywordRule p p := by
  rintro _ ⟨h, rfl⟩ text line children
  exact ⟨[], _, ⟨_, rfl⟩, .nil p, Node.sectionEvents_keyword kind h text line children⟩

theorem marks_name (kind : SectionKind) (p : Stage) : Marks (sectionViews kind) "text" p p := by
  rintro _ ⟨h, rfl⟩ text line children
  exact ⟨[], _, ⟨_, rfl⟩, .nil p, Node.sectionEvents_text kind h text line children⟩

theorem marks_description {kind : SectionKind} {p q : Stage}
    (opens : ∀ h, Takes p [.header kind h] q) : Marks (sectionViews kind) "description" p q := by
  rintro _ ⟨h, rfl⟩ text line children
  exact ⟨_, _, ⟨h, rfl⟩, opens _, Node.sectionEvents_description kind h text line children⟩

namespace Rules.Shipped

variable {rules : List Rule} {language : Language} (shipped : Shipped rules language)
include shipped

/-- A rule by its kind, whatever its body is. -/
theorem exists_body (name : String) (kind : RuleKind)
    (known : (name, kind) ∈ Template.fixedRules.map fun rule => (rule.name, rule.kind)) :
    ∃ body, find? rules name = some ⟨name, kind, body⟩ := by
  obtain ⟨rule, member, same⟩ := List.mem_map.mp known
  cases same
  exact ⟨_, shipped.fixed rule.arranged (List.mem_map_of_mem member)⟩

/-! ### Rules that only comments matter to -/

theorem leads_sp (p : Stage) : Leads rules p (.call "sp") p :=
  .silent (shipped.fixed ⟨"sp", .silent, _⟩ (by decide))
    (.star (.choice (.literal [' '] p) (.literal ['\t'] p)))

theorem leads_nl (p : Stage) : Leads rules p (.call "nl") p :=
  .silent (shipped.fixed ⟨"nl", .silent, _⟩ (by decide))
    (.choice (.literal ['\r', '\n'] p) (.literal ['\n'] p))

theorem leads_lineEnd (p : Stage) : Leads rules p (.call "line_end") p :=
  .silent (shipped.fixed ⟨"line_end", .silent, _⟩ (by decide))
    (.seq (shipped.leads_sp p) (.choice (shipped.leads_nl p) (.endOfInput p)))

theorem leads_ignorable (p : Stage) : Leads rules p (.call "ignorable") p := by
  have blank : Leads rules p (.call "blank_line") p :=
    .silent (shipped.fixed ⟨"blank_line", .silent, _⟩ (by decide))
      (.seq (shipped.leads_sp p) (shipped.leads_nl p))
  obtain ⟨body, found⟩ := shipped.exists_body "comment" .atomic (by decide)
  have mark : Leads rules p (.call "comment") p :=
    .leaf found (by decide) (by decide) fun text line _ => .comment p text line
  have comment : Leads rules p (.call "comment_line") p :=
    .silent (shipped.fixed ⟨"comment_line", .silent, _⟩ (by decide))
      (.seq (shipped.leads_sp p) (.seq mark (shipped.leads_lineEnd p)))
  exact .silent (shipped.fixed ⟨"ignorable", .silent, _⟩ (by decide)) (.choice blank comment)

theorem leads_tags (states : Control → Prop) :
    Leads rules (tagged states) (.call "tags") (tagged states) := by
  obtain ⟨body, found⟩ := shipped.exists_body "tag" .atomic (by decide)
  have tag : Leads rules (tagged states) (.call "tag") (tagged states) :=
    .leaf found (by decide) (by decide) fun text line _ => .tag states text line
  have line : Leads rules (tagged states) (.call "tag_line") (tagged states) :=
    .silent (shipped.fixed ⟨"tag_line", .silent, _⟩ (by decide))
      (.seq (shipped.leads_sp _) (.seq tag (.seq (.star (.seq (shipped.leads_sp _) tag))
        (shipped.leads_lineEnd _))))
  exact .silent (shipped.fixed ⟨"tags", .silent, _⟩ (by decide))
    (.star (.choice line (shipped.leads_ignorable _)))

/-! ### Steps and tables -/

/-- A table where a row may stand, and more of them behind it. -/
theorem leads_table (state next : Control) (first : state.row? = some next)
    (others : next.row? = some next) :
    Leads rules (untagged (· = state)) (.call "table") (untagged (· = next)) := by
  obtain ⟨body, found⟩ := shipped.exists_body "table_row" .normal (by decide)
  have row {before : Control} (moves : before.row? = some next) :
      Leads rules (untagged (· = before)) (.call "table_row") (untagged (· = next)) :=
    .leaf found (by decide) (by decide) fun text line children => .row moves _ line
  have rows := Leads.seq (row first) (.star (.seq (.star (shipped.leads_ignorable _)) (row others)))
  exact .normal (shipped.fixed ⟨"table", .normal, _⟩ (by decide)) (by decide)
    fun c nodes d matched _ _ => (rows c nodes d matched).2

theorem leads_docString (host : Host) :
    Leads rules (untagged (· = .steps host .nothing)) (.call "doc_string")
      (untagged (Control.hosts host)) := by
  obtain ⟨body, found⟩ := shipped.exists_body "doc_string" .normal (by decide)
  exact .leaf found (by decide) (by decide) fun text line children => .docString host _ line

/-- A step takes one argument at most, whatever the step before it carries. -/
theorem leads_step (host : Host) :
    Leads rules (untagged (Control.hosts host)) (.call "step") (untagged (Control.hosts host)) := by
  -- Behind the step the argument may be anything or missing.
  have hosts {carried : Carried} : ∀ control tags,
      untagged (· = .steps host carried) control tags →
        untagged (Control.hosts host) control tags := by
    rintro control tags ⟨rfl, none⟩
    exact ⟨⟨carried, rfl⟩, none⟩
  have table := (shipped.leads_table (.steps host .nothing) (.steps host .table) rfl rfl).mono
    (fun _ _ h => h) hosts
  have argument := Leads.opt (.seq (.star (shipped.leads_ignorable _))
    (.choice table (shipped.leads_docString host))) hosts
  obtain ⟨_, text⟩ := shipped.exists_body "text" .atomic (by decide)
  have keyword : find? rules "step_keyword" = some ⟨"step_keyword", .atomic, _⟩ :=
    shipped.keyword _ (Template.mem_keywordLists_step language)
  have below := LeadsIn.seq views_step (shipped.leads_sp _) <|
    .mark keyword (by decide) (marks_stepKeyword _) <|
    .mark text (by decide) (marks_stepText host) <|
    .seq views_step (shipped.leads_lineEnd _) (.of_leads views_step argument)
  exact .normal (shipped.fixed ⟨"step", .normal, _⟩ (by decide)) (by decide)
    fun c nodes d matched _ line => below c nodes d matched _ ⟨line, [], rfl⟩

theorem leads_steps (host : Host) :
    Leads rules (untagged (Control.hosts host)) (.call "steps") (untagged (Control.hosts host)) :=
  .silent (shipped.fixed ⟨"steps", .silent, _⟩ (by decide))
    (.star (.seq (.star (shipped.leads_ignorable _)) (shipped.leads_step host)))

/-! ### Sections -/

/-- A section whose header is taken in front of it, and what follows in the state behind that. -/
theorem leads_section {name : String} {kind : SectionKind} {p q r : Stage} {a e : Expr}
    (found : find? rules name = some ⟨name, .normal, .seq a (kind.headed e)⟩)
    (named : SectionKind.ofRule? name = some kind) (front : Leads rules p a p)
    (opens : ∀ h, Takes p [.header kind h] q) (contents : Leads rules q e r) :
    Leads rules p (.call name) r := by
  obtain ⟨_, text⟩ := shipped.exists_body "text" .atomic (by decide)
  obtain ⟨_, description⟩ := shipped.exists_body "description" .normal (by decide)
  have keyword := shipped.keyword _ (kind.mem_keywordLists language)
  have context := views_section kind
  -- The header is only delivered at the description, so up to there the first condition holds.
  have below := LeadsIn.seq context front <| .seq context (shipped.leads_sp p) <|
    .mark keyword (by decide) (marks_keyword kind p) <| .seq context (.literal [':'] p) <|
    .seq context (shipped.leads_sp p) <| .mark text (by decide) (marks_name kind p) <|
    .seq context (shipped.leads_lineEnd p) <|
    .mark description (by decide) (marks_description opens) (.of_leads context contents)
  refine .normal found (Node.mem_plainRules named) ?_
  intro c nodes d matched text line
  rw [Node.events_section named]
  exact below c nodes d matched _ ⟨_, rfl⟩

theorem leads_background :
    Leads rules (untagged (· = .feature)) (.call "background")
      (untagged (Control.hosts .background)) :=
  shipped.leads_section (shipped.fixed ⟨"background", .normal, _⟩ (by decide)) rfl
    (.star (shipped.leads_ignorable _)) .background (shipped.leads_steps .background)

theorem leads_scenario :
    Leads rules (tagged Control.complete) (.call "scenario") (untagged Control.complete) := by
  have opens : ∀ control : Control, control.complete →
      ∃ next, control.open? .scenario = some next ∧ next.hosts .scenario := by
    intro control complete
    exact ⟨_, if_pos complete, .noStep, rfl⟩
  have steps := (shipped.leads_steps .scenario).mono (t := untagged Control.complete)
    (fun _ _ h => h) fun _ _ behind => ⟨Control.complete_of_hosts (by decide) behind.1, behind.2⟩
  exact shipped.leads_section (shipped.fixed ⟨"scenario", .normal, _⟩ (by decide)) rfl
    (shipped.leads_tags _) (.header (by decide) opens) steps

theorem leads_examples :
    Leads rules (tagged fun control => control.takesExamples = true) (.call "examples")
      (untagged (· = .examples true)) := by
  have opens : ∀ control : Control, control.takesExamples = true →
      ∃ next, control.open? .examples = some next ∧ next = .examples false := by
    intro control takes
    exact ⟨_, if_pos takes, rfl⟩
  exact shipped.leads_section (shipped.fixed ⟨"examples", .normal, _⟩ (by decide)) rfl
    (shipped.leads_tags _) (.header (by decide) opens)
    (.seq (.star (shipped.leads_ignorable _)) (shipped.leads_table _ _ rfl rfl))

theorem leads_outline :
    Leads rules (tagged Control.complete) (.call "scenario_outline")
      (untagged Control.complete) := by
  have opens : ∀ control : Control, control.complete →
      ∃ next, control.open? .outline = some next ∧ next.hosts .outline := by
    intro control complete
    exact ⟨_, if_pos complete, .noStep, rfl⟩
  -- The first examples follow the steps of the outline, the others follow examples with a table.
  have first := shipped.leads_examples.mono (s := untagged (Control.hosts .outline))
    (by rintro _ _ ⟨⟨_, rfl⟩, _⟩; rfl) fun _ _ h => h
  have more := shipped.leads_examples.mono (s := untagged (· = .examples true))
    (by rintro _ _ ⟨rfl, _⟩; rfl) fun _ _ h => h
  have several := (Leads.seq first (.star more)).mono (t := untagged Control.complete)
    (fun _ _ h => h) (by rintro _ _ ⟨rfl, none⟩; exact ⟨rfl, none⟩)
  exact shipped.leads_section (shipped.fixed ⟨"scenario_outline", .normal, _⟩ (by decide)) rfl
    (shipped.leads_tags _) (.header (by decide) opens)
    (.seq (shipped.leads_steps .outline) several)

theorem leads_feature :
    Leads rules (tagged (· = .start)) (.call "feature") (untagged Control.complete) := by
  have opens : ∀ control : Control, control = .start →
      ∃ next, control.open? .feature = some next ∧ next = .feature := by
    rintro _ rfl
    exact ⟨_, rfl, rfl⟩
  have background := Leads.opt (q := untagged Control.complete)
    (shipped.leads_background.mono (fun _ _ h => h) fun _ _ behind =>
      ⟨Control.complete_of_hosts (by decide) behind.1, behind.2⟩)
    (by rintro _ _ ⟨rfl, none⟩; exact ⟨rfl, none⟩)
  have element := (Leads.choice shipped.leads_outline shipped.leads_scenario).mono
    (s := untagged Control.complete) (fun _ _ h => h.1) fun _ _ h => h
  exact shipped.leads_section (shipped.fixed ⟨"feature", .normal, _⟩ (by decide)) rfl
    (shipped.leads_tags _) (.header (by decide) opens) (.seq background (.star element))

/-- Around the feature there is nothing but comments. -/
theorem leads_documentWith {p q : Stage} {a : Expr} (feature : Leads rules p a q) :
    Leads rules p (documentWith a) q :=
  .seq (.startOfInput _) <| .seq (.star (shipped.leads_ignorable _)) <| .seq feature <|
    .seq (.star (shipped.leads_ignorable _)) <| .seq (shipped.leads_sp _) (.endOfInput _)

/-- A whole document begins at the start, and ends where it may end. -/
theorem leads_document {c d : Cursor} {nodes : List Node}
    (matched : Matches rules (.call language.entryRule) c nodes d) :
    Takes (untagged (· = .start)) (Node.allEvents nodes) (untagged Control.final) := by
  have feature := Leads.opt (q := untagged Control.final)
    (shipped.leads_feature.mono (s := untagged (· = .start)) (fun _ _ h => h.1) fun _ _ behind =>
      ⟨.inr behind.1, behind.2⟩)
    fun _ _ h => ⟨.inl h.1, h.2⟩
  have body := shipped.leads_documentWith feature
  cases matched with
  | @call _ _ _ _ below found inside =>
    cases shipped.entry.symm.trans found
    have events : Node.allEvents [.mk language.entryRule (c.upTo d) c.line below] =
        Node.allEvents below := by
      simp [Node.allEvents, Node.events_entry]
    show Takes _ (Node.allEvents [.mk language.entryRule (c.upTo d) c.line below]) _
    rw [events]
    exact (body _ _ _ inside).2

end Rules.Shipped

/-! ### Documents -/

namespace Parser

variable {language : Language} {parser : Parser}
  (compiled : Parser.compile Template.shipped language = .ok parser)
include compiled

/-- Where a document matches, everything it reports is taken, and so is its end. -/
theorem delivered_of_nodes {source : Text} {path : String} {nodes : List Node}
    (matched : parser.nodes source path = .ok nodes) (filter : Filter) :
    ∃ last, deliver Assembly.listen (.start filter) (Node.reading nodes source).events = (last, none) := by
  obtain ⟨d, gives⟩ := (nodes_eq_ok_iff compiled source path nodes).mp matched
  have taken := ((shipped_rules compiled).leads_document gives.matches).append
    (.endOfInput (fun _ final => final) source.endLine)
  obtain ⟨last, delivered, _⟩ := taken (.start filter) (Assembly.sound_start filter) ⟨rfl, rfl⟩
  exact ⟨last, delivered⟩

/-- Of a document that matches a tree is made. -/
theorem exists_parse_of_nodes {source : Text} {path : String} {nodes : List Node}
    (matched : parser.nodes source path = .ok nodes) (filter : Filter) :
    ∃ tree, parser.parse source path filter = .ok tree := by
  obtain ⟨last, delivered⟩ := delivered_of_nodes compiled matched filter
  have whole : (Node.reading nodes source).fault = none := rfl
  have made : (Node.reading nodes source).tree filter = .ok last.tree := by
    simp [Reading.tree, Reading.deliver, delivered, whole]
  exact ⟨last.tree, by simp [parse, matched, made, bind, Except.bind, pure, Except.pure]⟩

/-- A document without a tree does not match, and the error says where and why. -/
theorem mismatch_of_parse_error {source : Text} {path : String} {filter : Filter}
    {error : DocumentError} (refused : parser.parse source path filter = .error error) :
    ∃ probes, parser.grammar.match? parser.entryRule source = some ⟨none, probes⟩ ∧
      error = ⟨path, some (LineCol.ofOffset source (Attempts.ofProbes probes).furthest),
        parser.wording (Attempts.ofProbes probes).reason⟩ := by
  obtain ⟨⟨result, probes⟩, found⟩ := exists_match? compiled parser.entryRule source
  cases result with
  | some pair =>
    have matched : parser.nodes source path = .ok pair.1 := by
      simp [nodes, Engine.run, Grammar.run, found]
    obtain ⟨tree, made⟩ := exists_parse_of_nodes compiled matched filter
    rw [made] at refused
    cases refused
  | none =>
    have failed : parser.nodes source path =
        .error ⟨path, some (LineCol.ofOffset source (Attempts.ofProbes probes).furthest),
          parser.wording (Attempts.ofProbes probes).reason⟩ := by
      simp only [nodes, Engine.run, Grammar.run, found]
      rfl
    rw [parse_of_nodes_error failed] at refused
    cases refused
    exact ⟨probes, found, rfl⟩

end Parser

/-- The only syntax errors of a language that compiles are those of its parser. -/
theorem Language.parseWith_syntax_error_iff {template : Text} {language : Language}
    {parser : Parser} (compiled : Parser.compile template language = .ok parser) {source : Text}
    {path : String} {filter : Filter} {error : DocumentError} :
    language.parseWith template .grammar source path filter = .error (.document error) ↔
      parser.parse source path filter = .error error := by
  simp only [Language.parseWith, compiled, bind, Except.bind, Language.mark]
  cases parser.parse source path filter with
  | ok tree => simp
  | error other => simp

/-- Whatever the shipped grammar matches, the assembly takes, up to the end of the document. So the
only syntax errors by the grammar are mismatches. -/
theorem Parser.delivered_of_match (language : Language) (parser : Parser)
    (compiled : Parser.compile Template.shipped language = .ok parser) :
    (∀ source nodes last probes,
      parser.grammar.match? parser.entryRule source = some ⟨some (nodes, last), probes⟩ →
        ∀ filter, ∃ b,
          deliver Assembly.listen (.start filter) (Node.reading nodes source).events = (b, none)) ∧
    ∀ source path filter error,
      language.parseWith Template.shipped .grammar source path filter = .error (.document error) →
        ∃ probes, parser.grammar.match? parser.entryRule source = some ⟨none, probes⟩ ∧
          error = ⟨path, some (LineCol.ofOffset source (Attempts.ofProbes probes).furthest),
            parser.wording (Attempts.ofProbes probes).reason⟩ := by
  constructor
  · intro source nodes last probes found filter
    have matched : parser.nodes source "" = .ok nodes := by
      simp [Parser.nodes, Engine.run, Grammar.run, found]
    exact delivered_of_nodes compiled matched filter
  · intro source path filter error failed
    have refused := (Language.parseWith_syntax_error_iff compiled).mp failed
    exact mismatch_of_parse_error compiled refused

/-- A tagged scenario with a table is taken; a line of text is a mismatch. -/
theorem Parser.delivered_of_match_table :
    let source := "Feature: f\n  @t\n  Scenario: s\n    Given x\n      | a |\n".toList
    ∃ parser, Parser.compile Template.shipped .brief = .ok parser ∧
      (∃ nodes last probes b,
        parser.grammar.match? parser.entryRule source = some ⟨some (nodes, last), probes⟩ ∧
          deliver Assembly.listen .start (Node.reading nodes source).events = (b, none)) ∧
      ∃ error probes,
        Language.brief.parseWith Template.shipped .grammar ['x'] "f" .empty =
            .error (.document error) ∧
          error.message = parser.wording (Attempts.ofProbes probes).reason := by
  intro source
  obtain ⟨parser, compiled⟩ := Language.exists_compile_brief
  obtain ⟨taken, mismatches⟩ := Parser.delivered_of_match .brief parser compiled
  obtain ⟨rules, entry⟩ := Parser.compile_shipped compiled
  let arranged := (Template.shippedRules .brief).map Rule.arranged
  have runs (source : Text) : parser.grammar.match? parser.entryRule source =
      Rules.run arranged (Rules.fuel arranged source) (.call Language.brief.entryRule)
        (.start source) := by
    rw [Grammar.match?, Grammar.arranged, rules, entry]
  refine ⟨parser, compiled, ?_, ?_⟩
  · have accepts : ((Rules.run arranged (Rules.fuel arranged source)
        (.call Language.brief.entryRule) (.start source)).bind Match.result).isSome = true := by
      decide +kernel
    rw [← runs] at accepts
    obtain ⟨⟨nodes, last⟩, found⟩ := Option.isSome_iff_exists.mp accepts
    obtain ⟨⟨result, probes⟩, found, rfl⟩ := Option.bind_eq_some_iff.mp found
    obtain ⟨b, delivered⟩ := taken source nodes last probes found .empty
    exact ⟨nodes, last, probes, b, found, delivered⟩
  · have fails : (Rules.run arranged (Rules.fuel arranged ['x']) (.call Language.brief.entryRule)
        (.start ['x'])).bind Match.result = none := by
      decide +kernel
    rw [← runs] at fails
    have unmatched : ∃ error, parser.nodes ['x'] "f" = .error error := by
      simp only [Parser.nodes, Engine.run, Grammar.run]
      split
      next ran =>
        split at ran <;> cases ran
        next found => simp [found] at fails
      · exact ⟨_, rfl⟩
    obtain ⟨error, unmatched⟩ := unmatched
    have failed : Language.brief.parseWith Template.shipped .grammar ['x'] "f" .empty =
        .error (.document error) :=
      (Language.parseWith_syntax_error_iff compiled).mpr (Parser.parse_of_nodes_error unmatched)
    obtain ⟨probes, _, rfl⟩ := mismatches _ _ _ _ failed
    exact ⟨_, probes, failed, rfl⟩

end FeatureFile
