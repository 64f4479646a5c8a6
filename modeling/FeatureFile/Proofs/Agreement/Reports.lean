import FeatureFile.Grammar.Events
import FeatureFile.Proofs.Agreement.KeywordRules
import FeatureFile.Proofs.Document.Layout
import FeatureFile.Proofs.Document.Normal
/-!
Nodes and the events they stand for, up to the layout of texts. A keyword, a name or a description means
something to the section or the step it stands in; all other nodes mean the same anywhere.
-/

namespace FeatureFile

/-- A node that means the same wherever it stands. -/
def Node.IsPlain (node : Node) : Prop :=
  node.isKeyword = false ∧ node.rule ≠ "text" ∧ node.rule ≠ "description"

/-- The nodes stand for these events, wherever they stand. -/
structure Reports (nodes : List Node) (events : List Event) : Prop where
  plain : ∀ node ∈ nodes, node.IsPlain
  same : (Node.allEvents nodes).map Event.normal = events.map Event.normal

/-- Below a section of the kind the nodes stand for these events. -/
def SectionReports (kind : SectionKind) (nodes : List Node) (events : List Event) : Prop :=
  ∀ h, (Node.sectionEvents kind h nodes).map Event.normal = events.map Event.normal

namespace Node

theorem isKeyword_mk (rule : String) (text : Text) (line : Nat) (children : List Node) :
    (mk rule text line children).isKeyword = "_keyword".toList.isSuffixOf rule.toList := rfl

/-- The names of rules whose nodes are plain. -/
def plainRules : List String :=
  ["EOI", "comment", "tag", "step", "table", "table_row", "doc_string", "feature", "background",
    "scenario", "scenario_outline", "examples"]

theorem isPlain_mk {rule : String} (mem : rule ∈ plainRules) (text : Text) (line : Nat)
    (children : List Node) : (mk rule text line children).IsPlain := by
  have all : ∀ rule ∈ plainRules, "_keyword".toList.isSuffixOf rule.toList = false ∧
      rule ≠ "text" ∧ rule ≠ "description" := by
    decide
  exact all rule mem

/-- The rules of sections leave plain nodes. -/
theorem mem_plainRules {rule : String} {kind : SectionKind}
    (found : SectionKind.ofRule? rule = some kind) : rule ∈ plainRules := by
  unfold SectionKind.ofRule? at found
  split at found
  all_goals first | decide | cases found

theorem events_section {rule : String} {kind : SectionKind} (found : SectionKind.ofRule? rule = some kind)
    (text : Text) (line : Nat) (children : List Node) :
    (mk rule text line children).events = sectionEvents kind ⟨[], [], [], 0⟩ children := by
  unfold events
  simp only [found]

theorem allEvents_append (nodes others : List Node) :
    allEvents (nodes ++ others) = allEvents nodes ++ allEvents others := by
  induction nodes with
  | nil => rfl
  | cons node nodes ih => simp [allEvents, ih]

/-- Plain nodes leave the header of a section alone. -/
theorem sectionEvents_append {nodes : List Node} (plain : ∀ node ∈ nodes, node.IsPlain)
    (kind : SectionKind) (h : Header) (others : List Node) :
    sectionEvents kind h (nodes ++ others) = allEvents nodes ++ sectionEvents kind h others := by
  induction nodes with
  | nil => rfl
  | cons node nodes ih =>
    simp only [List.mem_cons, forall_eq_or_imp] at plain
    obtain ⟨⟨notKeyword, notText, notDescription⟩, others'⟩ := plain
    simp [sectionEvents, allEvents, notKeyword, notText, notDescription, ih others']

section

variable (kind : SectionKind) (h : Header) (text : Text) (line : Nat) (children others : List Node)

/-- The header gathers its keyword, with the line it stands on. -/
theorem sectionEvents_keyword :
    sectionEvents kind h (mk kind.keywordRule text line children :: others) =
      sectionEvents kind { h with keyword := text, line := line } others := by
  have keyword : (mk kind.keywordRule text line children).isKeyword = true := by
    rw [isKeyword_mk]
    cases kind <;> decide
  rw [sectionEvents, if_pos keyword]
  rfl

theorem sectionEvents_text :
    sectionEvents kind h (mk "text" text line children :: others) =
      sectionEvents kind { h with name := text } others := by
  have other : (mk "text" text line children).isKeyword = false := by
    rw [isKeyword_mk]
    decide
  rw [sectionEvents, other, if_neg (by simp),
    if_pos (show (mk "text" text line children).rule = "text" from rfl)]
  rfl

/-- With its description the header is reported. -/
theorem sectionEvents_description :
    sectionEvents kind h (mk "description" text line children :: others) =
      .header kind { h with description := text } :: sectionEvents kind h others := by
  have other : (mk "description" text line children).isKeyword = false := by
    rw [isKeyword_mk]
    decide
  rw [sectionEvents, other, if_neg (by simp), if_neg (by simp [Node.rule]),
    if_pos (show (mk "description" text line children).rule = "description" from rfl)]
  rfl

end

/-- Plain nodes do not matter to the keyword of a step either. -/
theorem stepEvents_append {nodes : List Node} (plain : ∀ node ∈ nodes, node.IsPlain) (line : Nat)
    (keyword : Text) (others : List Node) :
    stepEvents line keyword (nodes ++ others) = allEvents nodes ++ stepEvents line keyword others := by
  induction nodes with
  | nil => rfl
  | cons node nodes ih =>
    simp only [List.mem_cons, forall_eq_or_imp] at plain
    obtain ⟨⟨notKeyword, notText, _⟩, others'⟩ := plain
    have notStep : node.rule ≠ "step_keyword" := by
      intro same
      rw [isKeyword, same] at notKeyword
      exact absurd notKeyword (by decide)
    simp [stepEvents, allEvents, notStep, notText, ih others']

theorem stepEvents_keyword (line : Nat) (before k : Text) (n : Nat) (children others : List Node) :
    stepEvents line before (mk "step_keyword" k n children :: others) = stepEvents line k others :=
  rfl

/-- With its text the step is reported. -/
theorem stepEvents_text (line : Nat) (keyword name : Text) (n : Nat) (children others : List Node) :
    stepEvents line keyword (mk "text" name n children :: others) =
      .step keyword name line :: stepEvents line keyword others :=
  rfl

theorem stepEvents_plain {nodes : List Node} (plain : ∀ node ∈ nodes, node.IsPlain) (line : Nat)
    (keyword : Text) : stepEvents line keyword nodes = allEvents nodes := by
  simpa [stepEvents] using stepEvents_append plain line keyword []

end Node

variable {nodes others : List Node} {events more : List Event}

namespace Reports

theorem nil : Reports [] [] :=
  ⟨by simp, rfl⟩

theorem append (first : Reports nodes events) (second : Reports others more) :
    Reports (nodes ++ others) (events ++ more) := by
  refine ⟨fun node mem => ?_, ?_⟩
  · rcases List.mem_append.mp mem with mem | mem
    · exact first.plain node mem
    · exact second.plain node mem
  · rw [Node.allEvents_append, List.map_append, List.map_append, first.same, second.same]

/-- One node with its own events. -/
theorem single {node : Node} (plain : node.IsPlain) (same : node.events = events) :
    Reports [node] events := by
  refine ⟨by simpa using plain, ?_⟩
  rw [Node.allEvents, Node.allEvents, List.append_nil, same]

/-- The end of the text is no event. -/
theorem ends (atEnd : Ends nodes) : Reports nodes [] := by
  induction nodes with
  | nil => exact .nil
  | cons node nodes ih =>
    have first : node.rule = "EOI" := atEnd node (by simp)
    have others := ih fun node mem => atEnd node (by simp [mem])
    obtain ⟨rule, text, line, children⟩ := node
    obtain rfl : rule = "EOI" := first
    have last : Reports [.mk "EOI" text line children] [] :=
      .single (Node.isPlain_mk (by decide) ..) rfl
    exact last.append others

end Reports

namespace SectionReports

variable {kind : SectionKind}

theorem append (first : Reports nodes events) (second : SectionReports kind others more) :
    SectionReports kind (nodes ++ others) (events ++ more) := by
  intro h
  rw [Node.sectionEvents_append first.plain, List.map_append, List.map_append, first.same, second h]

theorem of_reports (reports : Reports nodes events) : SectionReports kind nodes events := by
  intro h
  have whole := Node.sectionEvents_append reports.plain kind h []
  rw [List.append_nil] at whole
  rw [whole, Node.sectionEvents, List.append_nil, reports.same]

/-- The nodes of a header. The trimmed name and the lines of the description are the same as on the line
of the header and the lines below it. -/
theorem header (kind : SectionKind) (k name : Text) (line n : Nat) (children : List Node) {w : Text}
    {raws : List Text} (lines : w.lines = raws) (unbroken : ∀ l ∈ raws, '\n' ∉ l) (atEnd : Ends others)
    (reports : Reports nodes events) :
    SectionReports kind
      (.mk kind.keywordRule k line [] :: .mk "text" name.unindent line [] ::
        (others ++ (.mk "description" w n children :: nodes)))
      (.header kind ⟨k, name, Text.joinLines raws, line⟩ :: events) := by
  intro h
  have same : normalizeDescription w = normalizeDescription (Text.joinLines raws) := by
    rw [normalizeDescription_joinLines unbroken, normalizeDescription, lines]
  have nothing := (Reports.ends atEnd).same
  rw [Node.sectionEvents_keyword, Node.sectionEvents_text,
    Node.sectionEvents_append (Reports.ends atEnd).plain, Node.sectionEvents_description,
    List.map_append, nothing, List.map_cons, of_reports reports]
  simp [Event.normal, Header.normal, same, Text.trim_unindent]

end SectionReports

namespace Reports

/-- A section with the nodes below it. -/
theorem ofSection {kind : SectionKind} {rule : String} (found : SectionKind.ofRule? rule = some kind)
    {text : Text} {line : Nat} (reports : SectionReports kind nodes events) :
    Reports [.mk rule text line nodes] events := by
  refine ⟨by simpa using Node.isPlain_mk (Node.mem_plainRules found) text line nodes, ?_⟩
  rw [Node.allEvents, Node.allEvents, List.append_nil, Node.events_section found]
  exact reports _

/-- A step with what it carries. -/
theorem ofStep (k name text : Text) (line : Nat) (atEnd : Ends others) (reports : Reports nodes events) :
    Reports [.mk "step" text line
        (.mk "step_keyword" k line [] :: .mk "text" name line [] :: (others ++ nodes))]
      (.step k name line :: events) := by
  have below := (Reports.ends atEnd).append reports
  refine ⟨by simpa using Node.isPlain_mk (by decide) .., ?_⟩
  have unfolded (children : List Node) : Node.events (.mk "step" text line children) =
      Node.stepEvents line [] children := rfl
  rw [Node.allEvents, Node.allEvents, List.append_nil, unfolded, Node.stepEvents_keyword,
    Node.stepEvents_text, Node.stepEvents_plain below.plain, List.map_cons, below.same]
  rfl

/-- A table with its rows. -/
theorem ofTable {text : Text} {line : Nat} (reports : Reports nodes events) :
    Reports [.mk "table" text line nodes] events := by
  refine ⟨by simpa using Node.isPlain_mk (by decide) .., ?_⟩
  have unfolded : Node.events (.mk "table" text line nodes) = Node.allEvents nodes := rfl
  rw [Node.allEvents, Node.allEvents, List.append_nil, unfolded, reports.same]

end Reports

end FeatureFile
