import FeatureFile.Proofs.Agreement.Documents
import FeatureFile.Proofs.Language.Filtering
/-!
The trees of the two ways of reading a document. Where the grammar matches, it reports what the line
reader reports, up to the layout of texts, and so both make the same tree.
-/

namespace FeatureFile

open Vocabulary (ofLanguage)

/-- Readings of the same normal form have the same tree. -/
theorem Reading.tree_congr {first second : Reading} (same : first.normal = second.normal) :
    first.tree = second.tree := by
  obtain ⟨events, fault⟩ := first
  obtain ⟨events', fault'⟩ := second
  simp only [Reading.normal, Prod.mk.injEq] at same
  obtain ⟨sameEvents, rfl⟩ := same
  simp only [Reading.tree, Reading.deliver, Assembly.deliver_congr .start sameEvents]

variable {language : Language} {parser : Parser} {source : Text} {path : String} {filter : Filter}
  {bs : List Block} {complete : Bool}

/-- The line reader from the first line on. -/
theorem read_blocks (blocks : Blocks (ofLanguage language) (.start source) bs complete) :
    if complete then
      ((ofLanguage language).read source).normal =
        ((bs.flatMap Block.events ++ [Event.endOfInput source.endLine]).map Event.normal, none)
    else ((ofLanguage language).read source).fault ≠ none := by
  have read := blocks.read (n := 1) fun _ => rfl
  rwa [show 1 + (Cursor.start source).rest.lines.length = source.endLine from Nat.add_comm ..] at read

namespace Parser

/-- A document matches exactly when it is a sequence of blocks that the reader of documents takes up to
the last one. -/
theorem nodes_isOk_iff (compiled : compile Template.shipped language = .ok parser)
    (separated : language.WellSeparated)
    (blocks : Blocks (ofLanguage language) (.start source) bs complete) :
    (∃ nodes, parser.nodes source path = .ok nodes) ↔
      complete ∧ BlockReader.document.read bs = some (bs, []) := by
  obtain ⟨used, left, read, given⟩ := (shipped_rules compiled).document separated blocks
  have split := BlockReader.document.splits read
  simp only [nodes_eq_ok_iff compiled]
  split_ifs at given with finished
  · obtain ⟨rfl, rfl⟩ := finished
    obtain ⟨nodes, last, gives, -⟩ := given
    rw [List.append_nil] at split
    rw [← split] at read
    exact ⟨fun _ => ⟨rfl, read⟩, fun _ => ⟨nodes, last, gives⟩⟩
  · constructor
    · rintro ⟨nodes, last, gives⟩
      cases gives.unique given
    · rintro ⟨whole, all⟩
      rw [read, Option.some.injEq, Prod.mk.injEq] at all
      exact absurd ⟨all.2, whole⟩ finished

/-- Where the grammar matches, both ways report the same. -/
theorem normal_reading (compiled : compile Template.shipped language = .ok parser)
    (separated : language.WellSeparated) {nodes : List Node}
    (matched : parser.nodes source path = .ok nodes) :
    (Node.reading nodes source).normal = ((ofLanguage language).read source).normal := by
  obtain ⟨bs, complete, blocks⟩ := exists_blocks (ofLanguage language) (.start source)
  obtain ⟨whole, all⟩ := (nodes_isOk_iff compiled separated blocks).mp ⟨nodes, matched⟩
  obtain ⟨used, left, read, given⟩ := (shipped_rules compiled).document separated blocks
  obtain ⟨last, gives⟩ := (nodes_eq_ok_iff compiled source path nodes).mp matched
  rw [all, Option.some.injEq, Prod.mk.injEq] at read
  obtain ⟨rfl, rfl⟩ := read
  rw [if_pos ⟨rfl, whole⟩] at given
  obtain ⟨nodes', last', gives', same⟩ := given
  cases gives.unique gives'
  have lines := read_blocks blocks
  rw [if_pos whole] at lines
  rw [lines]
  simp [Node.reading, Reading.normal, same]

theorem parse_eq_parseLines (compiled : compile Template.shipped language = .ok parser)
    (separated : language.WellSeparated) {nodes : List Node}
    (matched : parser.nodes source path = .ok nodes) :
    parser.parse source path filter = language.parseLines source path filter := by
  have same := Reading.tree_congr (normal_reading compiled separated matched)
  rw [parser.parse_eq, Language.parseLines_eq, matched]
  simp only [Except.bind, same]

theorem parse_of_nodes_error {error : DocumentError}
    (refused : parser.nodes source path = .error error) :
    parser.parse source path filter = .error error := by
  simp [parse, refused, bind, Except.bind]

end Parser

namespace Language

/-- By the grammar there is a tree only of a language that compiles. -/
theorem parseWith_grammar_iff {template : Text} {result : Option Feature} :
    language.parseWith template .grammar source path filter = .ok result ↔
      ∃ parser, Parser.compile template language = .ok parser ∧
        language.mark (parser.parse source path filter) = .ok result := by
  cases compiled : Parser.compile template language with
  | error error => simp [parseWith, compiled, bind, Except.bind]
  | ok parser => simp [parseWith, compiled, bind, Except.bind]

/-- The grammar accepts what it matches and the line reader accepts. -/
theorem parse_grammar_iff {result : Option Feature}
    (compiled : Parser.compile Template.shipped language = .ok parser)
    (separated : language.WellSeparated) :
    language.parseWith Template.shipped .grammar source path filter = .ok result ↔
      (∃ nodes, parser.nodes source path = .ok nodes) ∧
        language.parseWith Template.shipped .lines source path filter = .ok result := by
  rw [parseWith_grammar_iff, compiled]
  simp only [Except.ok.injEq, exists_eq_left']
  cases matched : parser.nodes source path with
  | ok nodes =>
    rw [Parser.parse_eq_parseLines compiled separated matched]
    simp [parseWith]
  | error error =>
    rw [Parser.parse_of_nodes_error matched]
    simp [mark]

end Language

end FeatureFile
