import FeatureFile.Proofs.Agreement.Backends
import FeatureFile.Proofs.Agreement.Transfer
import FeatureFile.Proofs.Text.Crlf
/-!
Documents whose lines end at CR LF instead of LF. At corresponding places the rules of the shipped
template match correspondingly, and what a line break is does not show in the tree: marks, names, cells
and keywords stand on one line, and of descriptions and doc strings only the lines matter.
-/

namespace FeatureFile

open Text (withCrlf FirstLine Unbroken)
open Vocabulary (ofLanguage)

/-! ### Places -/

/-- The place in the text with CR LF for every LF. -/
def Cursor.inCrlf (source : Text) (c : Cursor) : Cursor :=
  (start (withCrlf source)).after (withCrlf (source.take c.offset))

namespace Cursor

variable {source : Text} {c d : Cursor}

/-- What precedes a place decides where it is. -/
private theorem inCrlf_after {w t : Text} (split : (start source).rest = w ++ t) :
    ((start source).after w).inCrlf source = (start (withCrlf source)).after (withCrlf w) := by
  have before : source.take ((start source).after w).offset = w := by
    rw [show source = w ++ t from split]
    simp [start]
  rw [inCrlf, before]

theorem rest_inCrlf (within : (start source).Reaches c) :
    (c.inCrlf source).rest = withCrlf c.rest := by
  obtain ⟨w, split, same⟩ := within
  have split' : (start (withCrlf source)).rest = withCrlf w ++ withCrlf c.rest :=
    (congrArg withCrlf split).trans (Text.withCrlf_append w c.rest)
  rw [same, inCrlf_after split, rest_after split', ← same]

theorem line_inCrlf (within : (start source).Reaches c) : (c.inCrlf source).line = c.line := by
  obtain ⟨w, split, same⟩ := within
  rw [same, inCrlf_after split]
  simp [after, start]

theorem offset_inCrlf (within : (start source).Reaches c) :
    (c.inCrlf source).offset = 0 ↔ c.offset = 0 := by
  obtain ⟨w, split, same⟩ := within
  rw [same, inCrlf_after split]
  simp [start]

theorem passes_inCrlf (within : (start source).Reaches c) {w : Text} (passes : c.Passes w d) :
    (c.inCrlf source).Passes (withCrlf w) (d.inCrlf source) := by
  obtain ⟨onward, place⟩ := passes
  have within' : (start source).Reaches d := within.trans ⟨w, onward, place⟩
  refine ⟨by rw [rest_inCrlf within, rest_inCrlf within', onward, Text.withCrlf_append], ?_⟩
  obtain ⟨v, split, same⟩ := within
  have whole : (start source).rest = (v ++ w) ++ d.rest := by
    rw [List.append_assoc, ← onward, split]
  rw [place, same, after_after, inCrlf_after split, inCrlf_after whole, after_after,
    Text.withCrlf_append]

/-- A text without line breaks is found in the same places. -/
theorem skip?_inCrlf (within : (start source).Reaches c) {w : Text} (unbroken : Unbroken w) :
    (c.inCrlf source).skip? w = (c.skip? w).map (inCrlf source) := by
  by_cases found : w <+: c.rest
  · obtain ⟨t, split⟩ := found
    obtain ⟨split', place⟩ := passes_inCrlf within (passes_after split.symm)
    rw [Text.withCrlf_of_unbroken unbroken] at split' place
    rw [skip?_of_rest split.symm, skip?_of_rest split', Option.map_some, place]
  · have absent : ¬ w <+: (c.inCrlf source).rest := by
      rwa [rest_inCrlf within, Text.prefix_withCrlf_iff unbroken]
    rw [skip?_eq_none found, skip?_eq_none absent, Option.map_none]

theorem next?_inCrlf (within : (start source).Reaches c) (unfed : c.rest.head? ≠ some '\n') :
    (c.inCrlf source).next? = c.next?.map (inCrlf source) := by
  have rest := rest_inCrlf within
  cases split : c.rest with
  | nil =>
    rw [split] at rest
    simp [next?, split, rest]
  | cons x t =>
    have plain : x ≠ '\n' := by simpa [split] using unfed
    have passes : c.Passes [x] (c.after [x]) := passes_after split
    obtain ⟨_, place⟩ := passes_inCrlf within passes
    rw [split, Text.withCrlf_cons plain] at rest
    have single : withCrlf [x] = [x] := Text.withCrlf_cons plain []
    rw [single] at place
    simp [next?, split, rest, behind_eq_after split, behind_eq_after rest, place]

end Cursor

/-! ### Rules -/

section

variable {language : Language} {parser : Parser} {source : Text}

/-- What the rules for keywords may find is unbroken. -/
theorem Template.unbroken_of_keywordLists (unbroken : ∀ k ∈ language.allKeywords, Unbroken k)
    {rule : String} {keywords : List Text} (listed : (rule, keywords) ∈ keywordLists language) :
    ∀ k ∈ keywords, Unbroken k := by
  intro k member
  rcases mem_keywordLists.mp listed with ⟨kind, -, rfl⟩ | ⟨-, rfl⟩
  · exact unbroken k (Language.mem_allKeywords_of_section member)
  · exact Language.unbroken_of_step unbroken member

theorem Rules.Shipped.nl_inCrlf {rules : List Rule} (shipped : Shipped rules language)
    (unpaired : ¬ ['\r', '\n'] <:+: source) {c : Cursor} {result : Option (List Node × Cursor)}
    (within : (Cursor.start source).Reaches c) (gives : Gives rules (.call "nl") c result) :
    Gives rules (.call "nl") (c.inCrlf source) (moved (Cursor.inCrlf source) withCrlf result) := by
  have unpaired : ¬ ['\r', '\n'] <:+: c.rest :=
    fun inside => unpaired (inside.trans within.suffix.isInfix)
  obtain ⟨q, brk, rest, line⟩ := Text.exists_firstLine c.rest
  -- The line is the same at both places, so the rule fails at both or takes the break at both.
  have line' := line.withCrlf unpaired
  rw [← Cursor.rest_inCrlf within] at line'
  have given := shipped.nl_gives line'
  rw [gives.unique (shipped.nl_gives line)]
  simp only [ne_eq, Text.withCrlf_eq_nil] at given
  split_ifs at given ⊢ with ends
  · obtain ⟨rfl, -⟩ := ends
    have passes : c.Passes brk (c.after brk) := Cursor.passes_after line.eq_append
    rw [← (Cursor.passes_inCrlf within passes).2] at given
    exact given
  · exact given

theorem Rules.Shipped.keyword_inCrlf {rules : List Rule} (shipped : Shipped rules language)
    {rule : String} {keywords : List Text} (listed : (rule, keywords) ∈ Template.keywordLists language)
    (unbroken : ∀ k ∈ keywords, Unbroken k) {c : Cursor} {result : Option (List Node × Cursor)}
    (within : (Cursor.start source).Reaches c) (gives : Gives rules (.call rule) c result) :
    Gives rules (.call rule) (c.inCrlf source) (moved (Cursor.inCrlf source) withCrlf result) := by
  -- The keywords the text goes on with are the same at both places, and so is the first of them.
  have given := shipped.keyword_gives listed (c.inCrlf source)
  rw [Cursor.rest_inCrlf within, Cursor.line_inCrlf within,
    Vocabulary.find?_alternatives_of_prefix fun k member =>
      Text.prefix_withCrlf_iff (unbroken k member)] at given
  rw [gives.unique (shipped.keyword_gives listed c)]
  cases found : (Template.alternatives keywords).find? (·.isPrefixOf c.rest) with
  | none => simpa [found, moved] using given
  | some k =>
    have plain := unbroken k (Vocabulary.mem_alternatives.mp (List.mem_of_find?_eq_some found)).1
    obtain ⟨t, split⟩ : k <+: c.rest := by simpa using List.find?_some found
    have place := (Cursor.passes_inCrlf within (Cursor.passes_after split.symm)).2
    rw [Text.withCrlf_of_unbroken plain] at place
    simpa [found, moved, place, Node.mapText, Text.withCrlf_of_unbroken plain] using given

/-- At corresponding places everything matches correspondingly. -/
theorem Parser.simulation_inCrlf (compiled : compile Template.shipped language = .ok parser)
    (unbroken : ∀ k ∈ language.allKeywords, Unbroken k) (unpaired : ¬ ['\r', '\n'] <:+: source) :
    Rules.Simulation parser.grammar.arranged parser.grammar.arranged Template.ownRules
      (Cursor.start source).Reaches (Cursor.inCrlf source) withCrlf := by
  have shipped := shipped_rules compiled
  constructor
  case onward => exact fun _ _ within onward => within.trans onward
  case line => exact fun c within => Cursor.line_inCrlf within
  case upTo =>
    intro c d within onward
    obtain ⟨w, split, place⟩ := onward
    have passes : c.Passes w d := ⟨split, place⟩
    rw [passes.upTo, (Cursor.passes_inCrlf within passes).upTo]
  case startOfInput => exact fun c within => Cursor.offset_inCrlf within
  case endOfInput =>
    intro c within
    rw [Cursor.rest_inCrlf within, Bool.eq_iff_iff]
    simp
  case literal => exact fun c w within plain => Cursor.skip?_inCrlf within plain
  case any => exact fun c within unfed => Cursor.next?_inCrlf within unfed
  case feeds => exact fun c _ feed => shipped.nl_of_feed feed
  case same => exact fun _ _ => rfl
  case spares => exact fun _ _ => sparesFeeds_arranged compiled
  -- The texts differ in their line breaks alone, of which keywords are free.
  case called =>
    intro name own c result within gives
    rcases List.mem_cons.mp own with rfl | keyword
    · exact shipped.nl_inCrlf unpaired within gives
    · obtain ⟨⟨rule, keywords⟩, listed, rfl⟩ :
          ∃ list ∈ Template.keywordLists language, list.1 = name := List.mem_map.mp keyword
      exact shipped.keyword_inCrlf listed (Template.unbroken_of_keywordLists unbroken listed) within
        gives

end

/-! ### Events -/

/-- The rules besides those for keywords that match on one line. -/
def Template.lineRules : List String :=
  ["text", "comment", "tag", "cell"]

/-- With CR LF for every LF the node says the same. -/
structure Node.Steady (node : Node) : Prop where
  lines : (withCrlf node.text).lines = node.text.lines
  plain : node.isKeyword = true ∨ node.rule ∈ Template.lineRules → withCrlf node.text = node.text
  events : (node.mapText withCrlf).events.map Event.normal = node.events.map Event.normal

namespace Node

variable {nodes : List Node} (steady : ∀ node ∈ nodes, node.Steady)
include steady

theorem allEvents_withCrlf : (allEvents (nodes.map (mapText withCrlf))).map Event.normal =
    (allEvents nodes).map Event.normal := by
  induction nodes with
  | nil => rfl
  | cons node nodes ih =>
    obtain ⟨first, others⟩ := List.forall_mem_cons.mp steady
    simp only [List.map_cons, allEvents, List.map_append, first.events, ih others]

theorem sectionEvents_withCrlf (kind : SectionKind) (h : Header) :
    (sectionEvents kind h (nodes.map (mapText withCrlf))).map Event.normal =
      (sectionEvents kind h nodes).map Event.normal := by
  induction nodes generalizing h with
  | nil => rfl
  | cons node nodes ih =>
    obtain ⟨first, others⟩ := List.forall_mem_cons.mp steady
    simp only [List.map_cons, sectionEvents, isKeyword_mapText, rule_mapText, text_mapText,
      line_mapText]
    split_ifs with keyword text description
    · rw [first.plain (.inl keyword), ih others]
    · rw [first.plain (.inr (by simp [text, Template.lineRules])), ih others]
    · -- Of the description only the lines are kept.
      simp only [List.map_cons, ih others, Event.normal, Header.normal, normalizeDescription,
        first.lines]
    · simp only [List.map_append, first.events, ih others]

theorem stepEvents_withCrlf (line : Nat) (keyword : Text) :
    (stepEvents line keyword (nodes.map (mapText withCrlf))).map Event.normal =
      (stepEvents line keyword nodes).map Event.normal := by
  induction nodes generalizing keyword with
  | nil => rfl
  | cons node nodes ih =>
    obtain ⟨first, others⟩ := List.forall_mem_cons.mp steady
    simp only [List.map_cons, stepEvents, rule_mapText, text_mapText]
    split_ifs with keyword text
    · have same : node.isKeyword = true := by
        rw [isKeyword, keyword]
        decide
      rw [first.plain (.inl same), ih others]
    · rw [first.plain (.inr (by simp [text, Template.lineRules])), List.map_cons, List.map_cons,
        ih others]
    · simp only [List.map_append, first.events, ih others]

theorem cells_withCrlf : cells (nodes.map (mapText withCrlf)) = cells nodes := by
  induction nodes with
  | nil => rfl
  | cons node nodes ih =>
    obtain ⟨first, others⟩ := List.forall_mem_cons.mp steady
    by_cases cell : node.rule = "cell"
    · have same := first.plain (.inr (by simp [cell, Template.lineRules]))
      simpa [cells, cell, same] using ih others
    · simpa [cells, cell] using ih others

theorem docString_withCrlf (rule : String) (text : Text) (line : Nat) :
    docString (.mk rule (withCrlf text) line (nodes.map (mapText withCrlf))) =
      docString (.mk rule text line nodes) := by
  -- Of the body only the lines are kept, and of the opening fence the indentation.
  have body : Text.lines ((((nodes.map (mapText withCrlf)).find?
      (·.rule = "doc_string_body")).map Node.text).getD []) =
        Text.lines (((nodes.find? (·.rule = "doc_string_body")).map Node.text).getD []) := by
    rw [List.find?_map]
    simp only [Function.comp_def, rule_mapText]
    cases found : nodes.find? (·.rule = "doc_string_body") with
    | none => rfl
    | some node => simpa using (steady node (List.mem_of_find?_eq_some found)).lines
  simp only [docString, children, body, Node.text, Node.line, Text.indentation_withCrlf]

/-- A node reports the same if the nodes below it say the same. -/
theorem events_withCrlf {rule : String} {text : Text} (plain : rule ∈ Template.lineRules →
      withCrlf text = text) (line : Nat) :
    ((Node.mk rule text line nodes).mapText withCrlf).events.map Event.normal =
      (Node.mk rule text line nodes).events.map Event.normal := by
  rw [mapText]
  unfold events
  split
  · exact sectionEvents_withCrlf steady ..
  · split
    · rw [plain (by decide)]
    · rw [plain (by decide)]
    · exact stepEvents_withCrlf steady ..
    · rw [cells_withCrlf steady]
    · rw [docString_withCrlf steady]
    · rfl
    · exact allEvents_withCrlf steady

/-- So the node says the same, if its text has no CR LF and, in a rule for one line, no LF. -/
theorem steady_mk {rule : String} {text : Text} (unpaired : ¬ ['\r', '\n'] <:+: text)
    (plain : "_keyword".toList.isSuffixOf rule.toList = true ∨ rule ∈ Template.lineRules →
      '\n' ∉ text) (line : Nat) : (Node.mk rule text line nodes).Steady where
  lines := Text.lines_withCrlf unpaired
  plain named := Text.withCrlf_of_not_mem (plain named)
  events := events_withCrlf steady (fun named => Text.withCrlf_of_not_mem (plain (.inr named))) line

end Node

section

variable {language : Language} {rules : List Rule} {c d : Cursor} {e : Expr} {nodes : List Node}

/-- What a rule for one line takes has no line feed. -/
theorem Node.Written.not_mem (unbroken : ∀ k ∈ language.allKeywords, Unbroken k) {name : String}
    {text : Text}
    (listed : name ∈ Template.atomicRules ++ (Template.keywordLists language).map Prod.fst)
    (written : Node.Written language name text)
    (plain : "_keyword".toList.isSuffixOf name.toList = true ∨ name ∈ Template.lineRules) :
    '\n' ∉ text := by
  rcases List.mem_append.mp listed with fixed | keyword
  · simp only [Template.atomicRules, List.mem_cons, List.not_mem_nil, or_false] at fixed
    rcases fixed with rfl | rfl | rfl | rfl | rfl
    · exact written
    · exact written.2
    · obtain ⟨name, rfl, -, all⟩ := written
      exact List.not_mem_cons_of_ne_of_not_mem (by decide) fun feed => (all _ feed).2.2.2 rfl
    · exact written.1
    · exact absurd plain (by decide)
  · obtain ⟨⟨rule, keywords⟩, list, rfl⟩ := List.mem_map.mp keyword
    have among : text ∈ keywords := by
      rcases Template.mem_keywordLists.mp list with ⟨kind, rfl, rfl⟩ | ⟨rfl, rfl⟩
      · exact written.keyword.1
      · exact written.1
    exact fun feed => (Template.unbroken_of_keywordLists unbroken list text among _ feed).2 rfl

/-- All nodes of a match say the same with CR LF for every LF. -/
theorem Rules.Matches.steady (shipped : rules = (Template.shippedRules language).map Rule.arranged)
    (unbroken : ∀ k ∈ language.allKeywords, Unbroken k) (unpaired : ¬ ['\r', '\n'] <:+: c.rest)
    (matched : Matches rules e c nodes d) : ∀ node ∈ nodes, node.Steady := by
  have part (c d : Cursor) (unpaired : ¬ ['\r', '\n'] <:+: c.rest) :
      ¬ ['\r', '\n'] <:+: c.upTo d :=
    fun inside => unpaired (inside.trans (List.take_prefix _ c.rest).isInfix)
  have nothing : ∀ node ∈ ([] : List Node), node.Steady := nofun
  refine forall_nodes (Q := fun c => ¬ ['\r', '\n'] <:+: c.rest) shipped ?_ ?_ ?_ ?_ matched unpaired
  · exact fun c d onward unpaired inside => unpaired (inside.trans onward.suffix.isInfix)
  · exact fun line => Node.steady_mk nothing (by decide) (by simp) line
  · intro name c d listed unpaired _ written
    exact Node.steady_mk nothing (part c d unpaired) (written.not_mem unbroken listed) c.line
  · intro rule c d nodes named _ unpaired _ below
    refine Node.steady_mk below (part c d unpaired) (fun plain => ?_) c.line
    rcases named with rfl | normal
    · rcases plain with keyword | line
      · -- The name ends in "Parser", which the end of a keyword rule's name does not.
        have ends : "_keyword".toList <:+ language.grammarIdentifier ++ "Parser".toList := by
          rw [← language.toList_entryRule]
          exact List.isSuffixOf_iff_suffix.mp keyword
        have inside := List.suffix_of_suffix_length_le (List.suffix_append _ _) ends (by decide)
        exact absurd inside (by decide)
      · have other : ∀ name ∈ Template.lineRules, ¬ "Parser".toList <:+ name.toList := by
          decide +kernel
        exact absurd rfl (Template.entryRule_ne language (other _ line))
    · have other : ∀ name ∈ Template.normalRules,
          ¬ ("_keyword".toList.isSuffixOf name.toList = true ∨ name ∈ Template.lineRules) := by
        decide +kernel
      exact absurd plain (other _ normal)

end

/-! ### Documents -/

section

variable {language : Language} {parser : Parser} {source : Text} {path : String} {filter : Filter}

theorem Text.endLine_withCrlf (unpaired : ¬ ['\r', '\n'] <:+: source) :
    (withCrlf source).endLine = source.endLine := by
  rw [endLine, endLine, lines_withCrlf unpaired]

theorem Parser.parse_withCrlf (compiled : compile Template.shipped language = .ok parser)
    (unbroken : ∀ k ∈ language.allKeywords, Unbroken k) (unpaired : ¬ ['\r', '\n'] <:+: source)
    {tree : Option Feature} :
    parser.parse (withCrlf source) path filter = .ok tree ↔
      parser.parse source path filter = .ok tree := by
  have start : (Cursor.start source).inCrlf source = Cursor.start (withCrlf source) := by
    simp [Cursor.inCrlf, Cursor.start]
  refine parse_congr compiled compiled rfl (simulation_inCrlf compiled unbroken unpaired)
    (.refl _) start fun nodes matched => Reading.tree_congr ?_
  obtain ⟨_, gives⟩ := (nodes_eq_ok_iff compiled source path nodes).mp matched
  have steady := gives.matches.steady (arranged_shipped compiled) unbroken unpaired
  simp only [Node.reading, Reading.normal, List.map_append, Node.allEvents_withCrlf steady,
    Text.endLine_withCrlf unpaired]

/-- A CR without an LF behind it is no line break, and the searches for the end of a text, a tag or a
cell take it as any other character. -/
theorem Rules.Shipped.carriage {rules : List Rule} (shipped : Shipped rules language) {c : Cursor}
    {t : Text} (split : c.rest = '\r' :: t) (alone : t.head? ≠ some '\n') :
    Gives rules (.call "nl") c none ∧
      ∀ stop ∈ [.call "nl", tagStop, cellStop],
        Gives rules (.seq (.not stop) .any) c (some ([], c.after ['\r'])) := by
  obtain ⟨q, brk, rest, behind⟩ := Text.exists_firstLine t
  have line : FirstLine c.rest ('\r' :: q) brk rest := by
    rw [split]
    exact .cons (by decide) (fun more _ next => alone (by rw [next]; rfl)) behind
  refine ⟨shipped.nl_none line (.inl (by simp)), ?_⟩
  simp only [List.forall_mem_cons]
  exact ⟨shipped.stops_nl.one_some line rfl, shipped.stops_tag.one_some line (by decide),
    shipped.stops_cell.one_some line (by decide), nofun⟩

end

/-- Whether lines end at LF or at CR LF makes no difference. By the line reader a document has the same
result either way, and by the grammar the same tree or none. A CR on its own is text: the lines have all
characters of the document but its LF, and to the grammar it is a character as any other. -/
theorem Language.parseWith_withCrlf (language : Language)
    (unbroken : ∀ k ∈ language.allKeywords, Unbroken k) (source : Text)
    (unpaired : ¬ ['\r', '\n'] <:+: source) (path : String) (filter : Filter) :
    language.parseWith Template.shipped .lines (withCrlf source) path filter =
        language.parseWith Template.shipped .lines source path filter ∧
      (∀ result, language.parseWith Template.shipped .grammar (withCrlf source) path filter = .ok result ↔
        language.parseWith Template.shipped .grammar source path filter = .ok result) ∧
      (withCrlf source).lines = source.lines ∧
      source.lines.flatten = source.filter (· ≠ '\n') ∧
      ∀ parser, Parser.compile Template.shipped language = .ok parser → ∀ (c : Cursor) (t : Text),
        c.rest = '\r' :: t → t.head? ≠ some '\n' →
          Rules.Gives parser.grammar.arranged (.call "nl") c none ∧
            ∀ stop ∈ [.call "nl", tagStop, cellStop],
              Rules.Gives parser.grammar.arranged (.seq (.not stop) .any) c
                (some ([], c.after ['\r'])) := by
  have lines := Text.lines_withCrlf unpaired
  refine ⟨?_, ?_, lines, Text.flatten_lines unpaired, ?_⟩
  · simp only [parseWith, parseLines, Vocabulary.read, lines]
  · exact fun result => parseWith_grammar_congr rfl Iff.rfl fun p q compiled compiled' tree => by
      cases compiled.symm.trans compiled'
      exact Parser.parse_withCrlf compiled unbroken unpaired
  · exact fun parser compiled c t split alone =>
      (Parser.shipped_rules compiled).carriage split alone

/-- A document with a CR in a name and in a cell. -/
theorem Language.parseWith_withCrlf_carriage :
    let source := "Feature: f\rg\n  @t\n  Scenario: s\n    Given x\n      | a\rb |\n".toList
    ∃ parser f, Parser.compile Template.shipped brief = .ok parser ∧
      brief.parseWith Template.shipped .lines (withCrlf source) "f" .empty = .ok (some f) ∧
      brief.parseWith Template.shipped .grammar (withCrlf source) "f" .empty = .ok (some f) ∧
      f.name = "f\rg".toList ∧ (withCrlf source).lines.length = 5 ∧
      Rules.Gives parser.grammar.arranged (.call "nl")
        ((Cursor.start source).after "Feature: f".toList) none := by
  intro source
  let f : Feature := ⟨some "en", [], [], "Feature".toList, "f\rg".toList, [], 1, none,
    [.scenario ⟨[], [⟨['@', 't'], 2⟩], "Scenario".toList, ['s'], [], 3,
      [⟨"Given ".toList, ['x'], 4, some (.table [⟨["a\rb".toList], 5⟩])⟩]⟩]⟩
  obtain ⟨parser, compiled⟩ := exists_compile_brief
  have accepted : brief.parseWith Template.shipped .lines source "f" .empty = .ok (some f) := by
    decide +kernel
  have leads : TagsLead ((ofLanguage brief).read source).events := by
    decide +kernel
  obtain ⟨lines, grammar, count, _, carriage⟩ :=
    parseWith_withCrlf brief (by decide +kernel) source (by decide +kernel) "f" .empty
  refine ⟨parser, f, compiled, lines.trans accepted, (grammar _).mpr ?_, rfl, ?_, ?_⟩
  · exact parse_grammar_of_tagsLead compiled brief_wellSeparated leads accepted
  · rw [count]
    decide +kernel
  · exact (carriage parser compiled _
      "g\n  @t\n  Scenario: s\n    Given x\n      | a\rb |\n".toList
      (by decide +kernel) (by decide +kernel)).1

end FeatureFile
