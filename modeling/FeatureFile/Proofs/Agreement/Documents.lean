import FeatureFile.Proofs.Agreement.Mirrors
import FeatureFile.Proofs.Agreement.Scan
import FeatureFile.Proofs.Grammar.Compiled
/-!
Whole documents in blocks. The entry rule of the shipped template matches exactly when the text is a
sequence of blocks that the reader of documents takes up to the last one.
-/

namespace FeatureFile

open Text (FirstLine)
open Vocabulary (ofLanguage)

/-- Where a block begins there is a character. -/
theorem NextBlock.exists_line {v : Vocabulary} {c d : Cursor} {b : Block} (next : NextBlock v c b d) :
    ∃ q brk rest, FirstLine c.rest q brk rest ∧ (v.kind q = .blank → brk ≠ []) := by
  cases next with
  | blank line kind ends => exact ⟨_, _, _, line, fun _ => ends⟩
  | comment line kind | tags line kind | header line kind | step line kind | row line kind
  | docString line kind =>
    exact ⟨_, _, _, line, fun blank => absurd (kind.symm.trans blank) (by simp)⟩

/-- The entry rule stands for what is below it. -/
theorem Node.events_entry (language : Language) (text : Text) (line : Nat) (nodes : List Node) :
    Node.events (.mk language.entryRule text line nodes) = Node.allEvents nodes := by
  have other (name : String) (apart : ¬ "Parser".toList <:+ name.toList) :
      language.entryRule ≠ name :=
    Template.entryRule_ne language apart
  have noSection : SectionKind.ofRule? language.entryRule = none := by
    unfold SectionKind.ofRule?
    split
    all_goals first | rfl | exact absurd ‹_› (other _ (by decide))
  unfold Node.events
  simp only [noSection]
  split
  all_goals first | rfl | exact absurd ‹_› (other _ (by decide))

namespace Rules.Shipped

variable {rules : List Rule} {language : Language} (shipped : Shipped rules language)
  (separated : language.WellSeparated) {c : Cursor} {bs : List Block} {complete : Bool}
include shipped separated

/-- Behind the last block there is nothing but blanks, and nowhere else. -/
private theorem document_end (blocks : Blocks (ofLanguage language) c bs complete) :
    if bs = [] ∧ complete then
      ∃ nodes d, Ends nodes ∧ Gives rules (.seq (.call "sp") .endOfInput) c (some (nodes, d))
    else Gives rules (.seq (.call "sp") .endOfInput) c none := by
  have goesOn {q brk rest : Text} (line : FirstLine c.rest q brk rest)
      (more : (ofLanguage language).kind q = .blank → brk ≠ []) :
      Gives rules (.seq (.call "sp") .endOfInput) c none := by
    have goesOn : ¬ (q.unindent = [] ∧ brk = []) := fun ⟨blank, last⟩ =>
      more ((Vocabulary.exact separated q).blank.mp blank) last
    simpa [goesOn] using shipped.text_end line
  cases blocks with
  | @atEnd _ q rest line kind =>
    have blank := (Vocabulary.exact separated q).blank.mpr kind
    simpa [blank] using shipped.text_end line
  | stuck line more _ => simpa using goesOn line more
  | block next _ =>
    obtain ⟨q, brk, rest, line, more⟩ := next.exists_line
    simpa using goesOn line more

/-- What the entry rule gives at the beginning of a text: the events of all the blocks, where the reader
of documents takes them all, and else nothing. -/
theorem document {source : Text} (blocks : Blocks (ofLanguage language) (.start source) bs complete) :
    ∃ used left, BlockReader.document.read bs = some (used, left) ∧
      if left = [] ∧ complete then
        ∃ nodes d, Gives rules (.call language.entryRule) (.start source) (some (nodes, d)) ∧
          (Node.allEvents nodes).map Event.normal = (used.flatMap Block.events).map Event.normal
      else Gives rules (.call language.entryRule) (.start source) none := by
  have start : Gives rules .startOfInput (.start source) _ := .startOfInput rfl
  -- Each of the three parts may take nothing, so only the end of the document can be missing.
  obtain ⟨nodes, d, gives, behind, reports⟩ := shipped.mirrors_ignorables separated _ _ _ blocks
  obtain ⟨nodes', d', gives', behind', reports'⟩ :=
    Mirrors.opt (shipped.mirrors_feature separated) _ _ _ behind
  obtain ⟨nodes'', d'', gives'', behind'', reports''⟩ :=
    shipped.mirrors_ignorables separated _ _ _ behind'
  have atEnd := shipped.document_end separated behind''
  refine ⟨_, _, rfl, ?_⟩
  split_ifs at atEnd ⊢ with finished
  · obtain ⟨ends, last, ended, finish⟩ := atEnd
    have whole := Gives.normal shipped.entry
      (.seq_nil start (.seq gives (.seq gives' (.seq gives'' finish))))
    refine ⟨_, _, whole, ?_⟩
    have all := ((reports.append reports').append (reports''.append (.ends ended))).same
    simpa [Node.allEvents, Node.events_entry] using all
  · exact Gives.normal shipped.entry (.seq_nil start (.seq gives (.seq gives' (.seq gives'' atEnd))))

end Rules.Shipped

end FeatureFile
