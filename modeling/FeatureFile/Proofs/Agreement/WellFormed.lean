import FeatureFile.Proofs.Agreement.Delivery
import FeatureFile.Proofs.Agreement.Nodes
import FeatureFile.Proofs.Line.WellFormed
/-!
Every tree that parsing returns is well-formed, whichever way the document was read and in whatever
language. The events of a match are well-formed because the nodes they come from are; from there on the
two ways of reading have everything in common.
-/

namespace FeatureFile

open Rules (Matches find?)

/-- A node whose text is as its rule has it, and whose events are well-formed. -/
structure Node.WellFormed (language : Language) (node : Node) : Prop where
  written : Node.Written language node.rule node.text
  events : ∀ event ∈ node.events, event.WellFormed language

section

variable {language : Language} {rules : List Rule} {c d : Cursor} {nodes : List Node} {a e : Expr}

theorem Node.wellFormed_allEvents (formed : ∀ node ∈ nodes, node.WellFormed language) :
    ∀ event ∈ allEvents nodes, event.WellFormed language := by
  induction nodes with
  | nil => simp [allEvents]
  | cons node nodes ih =>
    obtain ⟨first, others⟩ := List.forall_mem_cons.mp formed
    rw [allEvents]
    exact List.forall_mem_append.mpr ⟨first.events, ih others⟩

namespace Rules.Shipped

variable (shipped : Shipped rules language)
include shipped

/-- The header of a section has the keyword and the name that stand in front of its description. -/
theorem wellFormed_section {kind : SectionKind} (h : Header)
    (before : ∀ name ∈ a.calls, name ∈ Template.plainCalls)
    (below : ∀ name ∈ e.calls, name ∈ Template.plainCalls)
    (matched : Matches rules (.seq a (kind.headed e)) c nodes d)
    (formed : ∀ node ∈ nodes, node.WellFormed language) :
    ∀ event ∈ Node.sectionEvents kind h nodes, event.WellFormed language := by
  have spaces : ∀ name ∈ (Expr.call "sp").calls, name ∈ Template.plainCalls := by decide
  have lineEnd : ∀ name ∈ (Expr.call "line_end").calls, name ∈ Template.plainCalls := by decide
  obtain ⟨_, text⟩ := shipped.exists_body "text" .atomic (by decide)
  obtain ⟨_, description⟩ := shipped.exists_body "description" .normal (by decide)
  have keyword := shipped.keyword _ (kind.mem_keywordLists language)
  -- The parts of the header, one by one, and behind them the contents of the section.
  obtain ⟨front, _, _, atFront, rest, rfl⟩ := matched.seq_cases
  obtain ⟨indentation, _, _, atIndentation, rest₁, rfl⟩ := rest.seq_cases
  obtain ⟨_, _, _, atKeyword, rest₂, rfl⟩ := rest₁.seq_cases
  obtain ⟨k, _, rfl⟩ := atKeyword.call_cases keyword (by decide)
  obtain ⟨_, _, _, ⟨_⟩, rest₃, rfl⟩ := rest₂.seq_cases
  obtain ⟨blanks, _, _, atBlanks, rest₄, rfl⟩ := rest₃.seq_cases
  obtain ⟨_, _, _, atName, rest₅, rfl⟩ := rest₄.seq_cases
  obtain ⟨name, _, rfl⟩ := atName.call_cases text (by decide)
  obtain ⟨ends, _, _, atEnds, rest₆, rfl⟩ := rest₅.seq_cases
  obtain ⟨_, _, contents, atDescription, atContents, rfl⟩ := rest₆.seq_cases
  obtain ⟨raw, _, rfl⟩ := atDescription.call_cases description (by decide)
  simp only [List.forall_mem_append, List.forall_mem_cons, List.nil_append, List.cons_append] at formed
  obtain ⟨front', indentation', keyword', blanks', name', ends', description', contents'⟩ := formed
  have contentsAlone (h : Header) : Node.sectionEvents kind h contents = Node.allEvents contents := by
    simpa [Node.sectionEvents] using
      Node.sectionEvents_append (shipped.plain_of_calls below atContents) kind h []
  rw [Node.sectionEvents_append (shipped.plain_of_calls before atFront),
    Node.sectionEvents_append (shipped.plain_of_calls spaces atIndentation),
    List.singleton_append, Node.sectionEvents_keyword,
    Node.sectionEvents_append (shipped.plain_of_calls spaces atBlanks),
    List.singleton_append, Node.sectionEvents_text,
    Node.sectionEvents_append (shipped.plain_of_calls lineEnd atEnds),
    List.singleton_append, Node.sectionEvents_description, contentsAlone]
  simp only [List.forall_mem_append, List.forall_mem_cons]
  refine ⟨Node.wellFormed_allEvents front', Node.wellFormed_allEvents indentation',
    Node.wellFormed_allEvents blanks', Node.wellFormed_allEvents ends', ?_,
    Node.wellFormed_allEvents contents'⟩
  obtain ⟨member, some⟩ := keyword'.written.keyword
  exact ⟨member, some, name'.written⟩

/-- A step has the keyword in front of its text. -/
theorem wellFormed_step {line : Nat} (below : ∀ name ∈ e.calls, name ∈ Template.plainCalls)
    (matched : Matches rules (.seq (.call "sp") (.seq (.call "step_keyword")
      (.seq (.call "text") (.seq (.call "line_end") e)))) c nodes d)
    (formed : ∀ node ∈ nodes, node.WellFormed language) :
    ∀ event ∈ Node.stepEvents line [] nodes, event.WellFormed language := by
  have spaces : ∀ name ∈ (Expr.call "sp").calls, name ∈ Template.plainCalls := by decide
  have within : ∀ name ∈ (Expr.seq (.call "line_end") e).calls, name ∈ Template.plainCalls :=
    List.forall_mem_cons.mpr ⟨by decide, below⟩
  obtain ⟨_, text⟩ := shipped.exists_body "text" .atomic (by decide)
  have keyword : find? rules "step_keyword" = some ⟨"step_keyword", .atomic, _⟩ :=
    shipped.keyword _ (Template.mem_keywordLists_step language)
  obtain ⟨indentation, _, _, atIndentation, rest, rfl⟩ := matched.seq_cases
  obtain ⟨_, _, _, atKeyword, rest₁, rfl⟩ := rest.seq_cases
  obtain ⟨k, _, rfl⟩ := atKeyword.call_cases keyword (by decide)
  obtain ⟨_, _, contents, atName, atContents, rfl⟩ := rest₁.seq_cases
  obtain ⟨name, _, rfl⟩ := atName.call_cases text (by decide)
  simp only [List.forall_mem_append, List.forall_mem_cons, List.cons_append, List.nil_append] at formed
  obtain ⟨indentation', keyword', name', contents'⟩ := formed
  rw [Node.stepEvents_append (shipped.plain_of_calls spaces atIndentation), List.singleton_append,
    Node.stepEvents_keyword, List.singleton_append, Node.stepEvents_text,
    Node.stepEvents_plain (shipped.plain_of_calls within atContents)]
  simp only [List.forall_mem_append, List.forall_mem_cons]
  refine ⟨Node.wellFormed_allEvents indentation', ?_, Node.wellFormed_allEvents contents'⟩
  obtain ⟨member, some⟩ := keyword'.written
  exact ⟨member, some, name'.written⟩

theorem isCells_of_row
    (matched : Matches rules (.seq (.call "sp") (.seq (.literal ['|'])
      (.seq (.seq (.seq (.call "cell") a) e) (.call "line_end")))) c nodes d)
    (formed : ∀ node ∈ nodes, node.WellFormed language) : IsCells (Node.cells nodes) := by
  obtain ⟨_, cell⟩ := shipped.exists_body "cell" .atomic (by decide)
  have first : ∃ node ∈ nodes, node.rule = "cell" := by
    obtain ⟨_, _, _, _, rest, rfl⟩ := matched.seq_cases
    obtain ⟨_, behindPipe, _, _, rest₁, rfl⟩ := rest.seq_cases
    obtain ⟨_, _, _, cells, _, rfl⟩ := rest₁.seq_cases
    obtain ⟨_, _, _, one, _, rfl⟩ := cells.seq_cases
    obtain ⟨_, _, _, atCell, _, rfl⟩ := one.seq_cases
    obtain ⟨text, children, rfl⟩ := atCell.call_cases cell (by decide)
    exact ⟨.mk "cell" text behindPipe.line children, by simp, rfl⟩
  constructor
  · obtain ⟨node, member, named⟩ := first
    simpa [Node.cells] using ⟨node, member, named⟩
  · refine List.forall_mem_map.mpr fun node listed => ?_
    obtain ⟨member, named⟩ := List.mem_filter.mp listed
    have written := (formed node member).written
    rw [show node.rule = "cell" by simpa using named] at written
    exact Text.isCell_trim written.1 written.2

/-- The rules of sections, whose headers stand between the rules in front and those below. -/
private theorem section_body {rule : Rule} (found : find? rules rule.name = some rule)
    {kind : SectionKind} (named : SectionKind.ofRule? rule.name = some kind) :
    ∃ a e, rule.body = .seq a (kind.headed e) ∧ (∀ name ∈ a.calls, name ∈ Template.plainCalls) ∧
      ∀ name ∈ e.calls, name ∈ Template.plainCalls := by
  have body (known : Rule) (member : known ∈ Template.fixedRules.map Rule.arranged)
      (same : rule.name = known.name) : rule.body = known.body :=
    congrArg Rule.body (shipped.eq_of_named found member same)
  have background := body ⟨"background", .normal, .seq (.star (.call "ignorable"))
    (SectionKind.headed .background (.call "steps"))⟩ (by decide)
  have scenario := body ⟨"scenario", .normal, .seq (.call "tags")
    (SectionKind.headed .scenario (.call "steps"))⟩ (by decide)
  have outline := body ⟨"scenario_outline", .normal, .seq (.call "tags")
    (SectionKind.headed .outline (.seq (.call "steps")
      (.seq (.call "examples") (.star (.call "examples")))))⟩ (by decide)
  have examples := body ⟨"examples", .normal, .seq (.call "tags")
    (SectionKind.headed .examples (.seq (.star (.call "ignorable")) (.call "table")))⟩ (by decide)
  have feature := body ⟨"feature", .normal, .seq (.call "tags")
    (SectionKind.headed .feature (.seq (.opt (.call "background"))
      (.star (.choice (.call "scenario_outline") (.call "scenario")))))⟩ (by decide)
  unfold SectionKind.ofRule? at named
  split at named <;> cases named
  · exact ⟨_, _, feature ‹_›, by decide, by decide⟩
  · exact ⟨_, _, background ‹_›, by decide, by decide⟩
  · exact ⟨_, _, scenario ‹_›, by decide, by decide⟩
  · exact ⟨_, _, outline ‹_›, by decide, by decide⟩
  · exact ⟨_, _, examples ‹_›, by decide, by decide⟩

private theorem wellFormed_inner {rule : Rule}
    (named : rule = Template.entryRule language.entryRule ∨ rule.name ∈ Template.normalRules)
    (found : find? rules rule.name = some rule) (matched : Matches rules rule.body c nodes d)
    (formed : ∀ node ∈ nodes, node.WellFormed language) (text : Text) (line : Nat) :
    (Node.mk rule.name text line nodes).WellFormed language := by
  have below := Node.wellFormed_allEvents formed
  rcases named with rfl | named
  · refine ⟨?_, ?_⟩
    · -- The name of the entry rule varies, but is none of those a text is known by.
      show Node.Written language language.entryRule text
      unfold Node.Written
      split <;> first | trivial | exact absurd ‹_› (Template.entryRule_ne language (by decide))
    · show ∀ event ∈ Node.events (.mk language.entryRule text line nodes), _
      rwa [Node.events_entry]
  · have written : Node.Written language rule.name text := by
      simp only [Template.normalRules, List.mem_cons, List.not_mem_nil, or_false] at named
      rcases named with same | same | same | same | same | same | same | same | same | same <;>
        rw [same] <;> trivial
    refine ⟨written, ?_⟩
    -- Sections, steps and rows report events of their own; the others hand on those from below.
    cases kind : SectionKind.ofRule? rule.name with
    | some kind =>
      obtain ⟨a, e, body, before, after⟩ := shipped.section_body found kind
      rw [body] at matched
      rw [Node.events_section kind]
      exact shipped.wellFormed_section _ before after matched formed
    | none =>
      have others : rule.name = "step" ∨ rule.name = "table_row" ∨ rule.name = "doc_string" ∨
          rule.name = "table" ∨ rule.name = "description" := by
        simp only [Template.normalRules, List.mem_cons, List.not_mem_nil, or_false] at named
        rcases named with same | same | same | same | same | same | same | same | same | same <;>
          rw [same] at kind <;> first | exact absurd kind (by decide) | simp [same]
      rcases others with same | same | same | same | same
      · obtain rfl : rule = ⟨"step", .normal, .seq (.call "sp") (.seq (.call "step_keyword")
            (.seq (.call "text") (.seq (.call "line_end") (.opt (.seq (.star (.call "ignorable"))
              (.choice (.call "table") (.call "doc_string")))))))⟩ :=
          shipped.eq_of_named found (by decide) same
        exact shipped.wellFormed_step (by decide) matched formed
      · obtain rfl : rule = ⟨"table_row", .normal, .seq (.call "sp") (.seq (.literal ['|'])
            (.seq (.seq (.seq (.call "cell") (.literal ['|']))
              (.star (.seq (.call "cell") (.literal ['|'])))) (.call "line_end")))⟩ :=
          shipped.eq_of_named found (by decide) same
        exact List.forall_mem_singleton.mpr (shipped.isCells_of_row matched formed)
      · rw [same]
        exact List.forall_mem_singleton.mpr trivial
      · rw [same]
        exact below
      · rw [same]
        exact below

end Rules.Shipped

theorem Rules.Matches.wellFormed (shipped : rules = (Template.shippedRules language).map Rule.arranged)
    (matched : Matches rules e c nodes d) : ∀ node ∈ nodes, node.WellFormed language := by
  have known : Rules.Shipped rules language := shipped ▸ Template.shipped_arranged language
  refine Rules.forall_nodes (Q := fun _ => True) shipped (fun _ _ _ _ => trivial) ?_ ?_ ?_ matched
    trivial
  · exact fun line => ⟨trivial, by rintro _ ⟨⟩⟩
  · intro name c d listed _ _ written
    refine ⟨written, ?_⟩
    simp only [Template.atomicRules, Template.keywordLists, List.map_cons, List.map_nil,
      List.cons_append, List.nil_append, List.mem_cons, List.not_mem_nil, or_false] at listed
    rcases listed with rfl | rfl | rfl | rfl | rfl | rfl | rfl | rfl | rfl | rfl | rfl
    case inr.inl => exact List.forall_mem_singleton.mpr written.1
    case inr.inr.inl => exact List.forall_mem_singleton.mpr written
    all_goals exact List.forall_mem_nil _
  · intro rule c d nodes named found _ matched formed
    exact known.wellFormed_inner named found matched formed _ _

theorem Parser.wellFormed_tree {parser : Parser}
    (compiled : Parser.compile Template.shipped language = .ok parser) {source : Text} {path : String}
    {nodes : List Node} (matched : parser.nodes source path = .ok nodes) {f : Feature}
    (made : (Node.reading nodes source).tree = .ok (some f)) : f.WellFormed language := by
  obtain ⟨_, gives⟩ := (nodes_eq_ok_iff compiled source path _).mp matched
  have formed := Node.wellFormed_allEvents (gives.matches.wellFormed (arranged_shipped compiled))
  refine Reading.wellFormed_of_tree ?_ (fun _ => ⟨_, source.endLine, rfl⟩) made
  exact List.forall_mem_append.mpr ⟨formed, List.forall_mem_singleton.mpr trivial⟩

/-- Behind the filter and under the mark of the language a tree is as well-formed as before. -/
private theorem wellFormed_of_mark {tree : Option Feature} {filter : Filter} {f : Feature}
    (formed : ∀ whole, tree = some whole → whole.WellFormed language)
    (made : language.mark (.ok (tree.map filter.apply)) = .ok (some f)) : f.WellFormed language := by
  cases tree with
  | none => cases made
  | some whole =>
    cases made
    obtain ⟨headings, steps, examples, outlines⟩ := Filter.wellFormed_apply (formed whole rfl) filter
    exact ⟨headings, steps, examples, outlines⟩

/-- Every tree that parsing returns is well-formed: its keywords are those of the language, its tags,
comments, names and cells are what their marks say, and no table, row or outline is empty. -/
theorem Language.wellFormed_of_parseWith (language : Language) (backend : Backend) (source : Text)
    (path : String) (filter : Filter) (f : Feature)
    (made : language.parseWith Template.shipped backend source path filter = .ok (some f)) :
    f.WellFormed language := by
  cases backend with
  | lines =>
    rw [parseWith, parseLines_eq] at made
    cases read : ((Vocabulary.ofLanguage language).read source).tree with
    | error => simp [read, mark] at made
    | ok tree =>
      rw [read] at made
      exact wellFormed_of_mark (fun whole same => Vocabulary.wellFormed_read (same ▸ read)) made
  | grammar =>
    obtain ⟨parser, compiled, marked⟩ := parseWith_grammar_iff.mp made
    rw [parser.parse_eq] at marked
    cases matched : parser.nodes source path with
    | error => simp [matched, Except.bind, mark] at marked
    | ok nodes =>
      rw [matched] at marked
      cases read : (Node.reading nodes source).tree with
      | error => simp [read, Except.bind, mark] at marked
      | ok tree =>
        simp only [Except.bind, read] at marked
        exact wellFormed_of_mark
          (fun whole same => Parser.wellFormed_tree compiled matched (same ▸ read)) marked

/-- The tree of a tagged scenario with a table, by either backend. -/
theorem Language.wellFormed_of_parseWith_table :
    let source := "Feature: f\n  @t\n  Scenario: s\n    Given x\n      | a |\n".toList
    ∃ f, brief.parseWith Template.shipped .lines source "f" .empty = .ok (some f) ∧
      brief.parseWith Template.shipped .grammar source "f" .empty = .ok (some f) ∧
      f.elements ≠ [] ∧ f.WellFormed brief := by
  intro source
  let f : Feature := ⟨some "en", [], [], "Feature".toList, ['f'], [], 1, none,
    [.scenario ⟨[], [⟨['@', 't'], 2⟩], "Scenario".toList, ['s'], [], 3,
      [⟨"Given ".toList, ['x'], 4, some (.table [⟨[['a']], 5⟩])⟩]⟩]⟩
  obtain ⟨parser, compiled⟩ := exists_compile_brief
  have lines : brief.parseWith Template.shipped .lines source "f" .empty = .ok (some f) := by
    decide +kernel
  have leads : TagsLead ((Vocabulary.ofLanguage brief).read source).events := by
    decide +kernel
  have grammar : brief.parseWith Template.shipped .grammar source "f" .empty = .ok (some f) :=
    parse_grammar_of_tagsLead compiled brief_wellSeparated leads lines
  exact ⟨f, lines, grammar, by simp [f],
    wellFormed_of_parseWith brief .grammar source "f" .empty f grammar⟩

end

end FeatureFile
