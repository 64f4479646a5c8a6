import FeatureFile.Proofs.Agreement.Nodes
import FeatureFile.Proofs.Agreement.Trees
import FeatureFile.Proofs.Grammar.Faultless
import FeatureFile.Proofs.Grammar.Simulation
/-!
Simulations between grammars of the shipped template. The rules of two languages differ in their
keywords alone; where keywords and line breaks correspond, whole documents do, and the two parsers
accept the same if corresponding nodes make the same tree.
-/

namespace FeatureFile

namespace Template

/-- The rules for line breaks and keywords, which no expression but their own looks into. -/
def ownRules : List String :=
  ["nl", "feature_keyword", "background_keyword", "scenario_keyword", "scenario_outline_keyword",
    "examples_keyword", "step_keyword"]

theorem keywordLists_subset_ownRules (language : Language) :
    (keywordLists language).map Prod.fst ⊆ ownRules :=
  List.subset_cons_self ..

end Template

namespace Parser

variable {language other : Language} {parser parser' : Parser} {name : String}

/-- All other rules are common to the parsers of languages whose entry rules have the same name. -/
theorem find?_arranged_congr (compiled : compile Template.shipped language = .ok parser)
    (compiled' : compile Template.shipped other = .ok parser')
    (entry : other.entryRule = language.entryRule) (common : name ∉ Template.ownRules) :
    Rules.find? parser'.grammar.arranged name = Rules.find? parser.grammar.arranged name := by
  -- The languages differ in the rules for keywords, none of which has this name.
  have none (language : Language) {f : String × List Text → Rule} (named : ∀ list, (f list).name = list.1) :
      Rules.find? ((Template.keywordLists language).map f) name = none := by
    refine List.find?_eq_none.mpr fun rule member => ?_
    obtain ⟨list, listed, rfl⟩ := List.mem_map.mp member
    have own : list.1 ∈ Template.ownRules :=
      Template.keywordLists_subset_ownRules language (List.mem_map_of_mem listed)
    have other : list.1 ≠ name := fun same => common (same ▸ own)
    simpa [named] using other
  rw [arranged_shipped compiled, arranged_shipped compiled']
  simp only [Template.map_arranged_shippedRules, Rules.find?, List.find?_cons, List.find?_append]
    at none ⊢
  rw [none language, none other, entry]
  all_goals exact fun _ => rfl

/-- Only the rule for line breaks takes line feeds. -/
theorem sparesFeeds_arranged (compiled : compile Template.shipped language = .ok parser)
    {rule : Rule} (common : name ∉ Template.ownRules)
    (found : Rules.find? parser.grammar.arranged name = some rule) :
    rule.body.sparesFeeds false = true := by
  -- The entry rule and those with a fixed body are looked at one by one.
  have fixed : ∀ rule ∈ Template.fixedRules.map Rule.arranged,
      rule.name ∈ Template.ownRules ∨ rule.body.sparesFeeds false = true := by
    decide +kernel
  obtain rfl := Rules.name_of_find? found
  have member := List.mem_of_find?_eq_some found
  rw [arranged_shipped compiled, Template.map_arranged_shippedRules] at member
  rcases List.mem_cons.mp member with rfl | other
  · rfl
  · rcases List.mem_append.mp other with known | keyword
    · exact (fixed rule known).resolve_left common
    · obtain ⟨list, listed, rfl⟩ := List.mem_map.mp keyword
      have own := Template.keywordLists_subset_ownRules language (List.mem_map_of_mem listed)
      exact absurd own common

end Parser

/-- In front of a line feed there is a line break. -/
theorem Rules.Shipped.nl_of_feed {rules : List Rule} {language : Language}
    (shipped : Shipped rules language) {c : Cursor} (feed : c.rest.head? = some '\n') :
    ¬ Gives rules (.call "nl") c none := by
  intro fails
  obtain ⟨rest, split⟩ : ∃ rest, c.rest = '\n' :: rest := by
    cases same : c.rest with
    | nil => simp [same] at feed
    | cons x rest => exact ⟨rest, by simpa [same] using feed⟩
  have line : Text.FirstLine c.rest [] ['\n'] rest := split ▸ .feed rest
  cases fails.unique (shipped.nl_some line (by simp))

namespace Parser

variable {language : Language} {parser : Parser} {source : Text} {path : String} {filter : Filter}
  {result : Option Feature}

/-- What a parser accepts, it matches, and makes a tree of it. -/
theorem parse_eq_ok_iff :
    parser.parse source path filter = .ok result ↔
      ∃ nodes tree, parser.nodes source path = .ok nodes ∧
        (Node.reading nodes source).tree = .ok tree ∧ tree.map filter.apply = result := by
  rw [parser.parse_eq]
  cases parser.nodes source path with
  | error => simp [Except.bind]
  | ok nodes => cases made : (Node.reading nodes source).tree <;> simp [Except.bind, made]

/-- Parsers whose entry rules give corresponding results accept the same, if corresponding nodes make the
same tree. -/
theorem parse_congr_of_gives {other : Language} {parser' : Parser} {source' : Text}
    (place : Cursor → Cursor) (text : Text → Text)
    (compiled : compile Template.shipped language = .ok parser)
    (compiled' : compile Template.shipped other = .ok parser')
    (moves : ∀ result,
      Rules.Gives parser.grammar.arranged (.call language.entryRule) (.start source) result →
        Rules.Gives parser'.grammar.arranged (.call other.entryRule) (.start source')
          (Rules.moved place text result))
    (same : ∀ nodes, parser.nodes source path = .ok nodes →
      (Node.reading (nodes.map (Node.mapText text)) source').tree = (Node.reading nodes source).tree) :
    parser'.parse source' path filter = .ok result ↔
      parser.parse source path filter = .ok result := by
  -- The entry rule settles on every document, so its one result and the image of it are all there is.
  obtain ⟨given, gives⟩ := exists_gives compiled language.entryRule source
  have gives' := moves given gives
  have known (nodes : List Node) :
      parser.nodes source path = .ok nodes ↔ ∃ last, given = some (nodes, last) := by
    rw [nodes_eq_ok_iff compiled]
    exact exists_congr fun last => ⟨gives.unique, fun same => same ▸ gives⟩
  have known' (nodes : List Node) : parser'.nodes source' path = .ok nodes ↔
      ∃ last, Rules.moved place text given = some (nodes, last) := by
    rw [nodes_eq_ok_iff compiled']
    exact exists_congr fun last => ⟨gives'.unique, fun same => same ▸ gives'⟩
  simp only [parse_eq_ok_iff, known, known']
  cases given with
  | none => simp [Rules.moved]
  | some pair =>
    obtain ⟨nodes, last⟩ := pair
    have trees := same nodes ((known nodes).mpr ⟨last, rfl⟩)
    simp [Rules.moved, trees]

/-- Parsers of which one simulates the other accept the same, if corresponding nodes make the same
tree. -/
theorem parse_congr {other : Language} {parser' : Parser} {source' : Text} {own : List String}
    {At : Cursor → Prop} {place : Cursor → Cursor} {text : Text → Text}
    (compiled : compile Template.shipped language = .ok parser)
    (compiled' : compile Template.shipped other = .ok parser')
    (entry : other.entryRule = language.entryRule)
    (sim : Rules.Simulation parser.grammar.arranged parser'.grammar.arranged own At place text)
    (here : At (.start source)) (start : place (.start source) = .start source')
    (same : ∀ nodes, parser.nodes source path = .ok nodes →
      (Node.reading (nodes.map (Node.mapText text)) source').tree = (Node.reading nodes source).tree) :
    parser'.parse source' path filter = .ok result ↔
      parser.parse source path filter = .ok result := by
  refine parse_congr_of_gives place text compiled compiled' (fun result gives => ?_) same
  rw [entry, ← start]
  exact sim.gives here gives

/-- Where the entry rules give the same, the parsers accept the same. -/
theorem parse_iff_of_gives {other : Language} {parser' : Parser}
    (compiled : compile Template.shipped language = .ok parser)
    (compiled' : compile Template.shipped other = .ok parser')
    (same : ∀ result,
      Rules.Gives parser.grammar.arranged (.call language.entryRule) (.start source) result →
        Rules.Gives parser'.grammar.arranged (.call other.entryRule) (.start source) result) :
    parser'.parse source path filter = .ok result ↔ parser.parse source path filter = .ok result := by
  refine parse_congr_of_gives id id compiled compiled' (fun result gives => ?_) fun nodes _ => ?_
  · rw [Rules.moved_id]
    exact same result gives
  · rw [show Node.mapText id = id from funext Node.mapText_id, List.map_id]

end Parser

namespace Language

variable {a b language : Language} {source source' : Text} {path : String} {filter : Filter}
  {result : Option Feature}

/-- Entry rules are named for the names of their languages. -/
theorem entryRule_congr (name : b.name = a.name) : b.entryRule = a.entryRule := by
  simp only [entryRule, grammarIdentifier, name]

/-- So languages of one name compile together, whatever their keywords. -/
theorem exists_compile_congr (name : b.name = a.name) :
    (∃ q, Parser.compile Template.shipped b = .ok q) ↔
      ∃ p, Parser.compile Template.shipped a = .ok p := by
  rw [Parser.exists_compile_iff, Parser.exists_compile_iff, entryRule_congr name, name]

theorem mark_eq_ok_iff {parsed : Except DocumentError (Option Feature)} :
    language.mark parsed = .ok result ↔
      ∃ tree, parsed = .ok tree ∧
        tree.map (fun f => { f with language := some language.identifier }) = result := by
  cases parsed <;> simp [mark]

/-- Languages that compile together have the same trees by the grammar, if their parsers do. -/
theorem parseWith_grammar_congr (identifier : b.identifier = a.identifier)
    (both : (∃ q, Parser.compile Template.shipped b = .ok q) ↔
      ∃ p, Parser.compile Template.shipped a = .ok p)
    (same : ∀ p q, Parser.compile Template.shipped a = .ok p →
      Parser.compile Template.shipped b = .ok q → ∀ tree,
        q.parse source' path filter = .ok tree ↔ p.parse source path filter = .ok tree) :
    b.parseWith Template.shipped .grammar source' path filter = .ok result ↔
      a.parseWith Template.shipped .grammar source path filter = .ok result := by
  simp only [parseWith_grammar_iff, mark_eq_ok_iff, identifier]
  constructor
  · rintro ⟨q, compiled', tree, parsed, marked⟩
    obtain ⟨p, compiled⟩ := both.mp ⟨q, compiled'⟩
    exact ⟨p, compiled, tree, (same p q compiled compiled' tree).mp parsed, marked⟩
  · rintro ⟨p, compiled, tree, parsed, marked⟩
    obtain ⟨q, compiled'⟩ := both.mpr ⟨p, compiled⟩
    exact ⟨q, compiled', tree, (same p q compiled compiled' tree).mpr parsed, marked⟩

end Language

end FeatureFile
