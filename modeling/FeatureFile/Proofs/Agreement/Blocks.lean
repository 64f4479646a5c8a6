import FeatureFile.Proofs.Agreement.BlockRules
/-!
A document as a sequence of blocks: a header with its description and a doc string with its fences are
one block, every other line is one. Both ways of reading a document go through these blocks.
-/

namespace FeatureFile

open Text (FirstLine)

/-- A part of a document that cannot be divided. -/
inductive Block where
  | blank
  | comment (text : Text) (line : Nat)
  | tags (first : Text) (others : List Text) (line : Nat)
  | header (kind : SectionKind) (header : Header)
  | step (keyword name : Text) (line : Nat)
  | row (cells : List Text) (line : Nat)
  | docString (content : Text) (line : Nat)

namespace Block

/-- The events of a block. -/
def events : Block → List Event
  | blank => []
  | comment text line => [.comment text line]
  | tags first others line => (first :: others).map (.tag · line)
  | header kind h => [.header kind h]
  | step keyword name line => [.step keyword name line]
  | row cells line => [.row cells line]
  | docString content line => [.docString content line]

/-- What a block is, apart from its contents. -/
inductive Shape where
  | blank | comment | tags | header (kind : SectionKind) | step | row | docString
  deriving DecidableEq

def shape : Block → Shape
  | blank => .blank
  | comment _ _ => .comment
  | tags _ _ _ => .tags
  | header kind _ => .header kind
  | step _ _ _ => .step
  | row _ _ => .row
  | docString _ _ => .docString

theorem exists_header {b : Block} {kind : SectionKind} (same : b.shape = .header kind) :
    ∃ h, b = .header kind h := by
  cases b with
  | header kind' h =>
    obtain rfl : kind' = kind := by simpa [shape] using same
    exact ⟨h, rfl⟩
  | _ => cases same

/-- Whether the block may stand between any others. -/
def isIgnorable (b : Block) : Bool :=
  b.shape = .blank ∨ b.shape = .comment

/-- Whether the block may stand among the tags in front of a header. -/
def mayLead (b : Block) : Bool :=
  b.shape = .tags ∨ b.isIgnorable

end Block

/-- The block at a place, and the place behind it. -/
inductive NextBlock (v : Vocabulary) : Cursor → Block → Cursor → Prop where
  | blank {c : Cursor} {q brk rest : Text} (line : FirstLine c.rest q brk rest)
      (kind : v.kind q = .blank) (ends : brk ≠ []) : NextBlock v c .blank (c.after (q ++ brk))
  | comment {c : Cursor} {q brk rest text : Text} (line : FirstLine c.rest q brk rest)
      (kind : v.kind q = .comment text) : NextBlock v c (.comment text c.line) (c.after (q ++ brk))
  | tags {c : Cursor} {q brk rest text first : Text} {others : List Text}
      (line : FirstLine c.rest q brk rest) (kind : v.kind q = .tags text)
      (found : TagLine.split? text = some (first :: others)) :
      NextBlock v c (.tags first others c.line) (c.after (q ++ brk))
  | header {c d : Cursor} {q brk rest k name : Text} {kind : SectionKind} {raws : List Text}
      (line : FirstLine c.rest q brk rest) (found : v.kind q = .header kind k name)
      (run : Cursor.Run v.Free (c.after (q ++ brk)) raws d) :
      NextBlock v c (.header kind ⟨k, name, Text.joinLines raws, c.line⟩) d
  | step {c : Cursor} {q brk rest k name : Text} (line : FirstLine c.rest q brk rest)
      (kind : v.kind q = .step k name) : NextBlock v c (.step k name c.line) (c.after (q ++ brk))
  | row {c : Cursor} {q brk rest text : Text} {cells : List Text} (line : FirstLine c.rest q brk rest)
      (kind : v.kind q = .row text) (found : TableRow.split? text = some cells) :
      NextBlock v c (.row cells c.line) (c.after (q ++ brk))
  | docString {c d : Cursor} {q brk rest q' brk' rest' : Text} {raws : List Text}
      (line : FirstLine c.rest q brk rest) (kind : v.kind q = .fence true) (ends : brk ≠ [])
      (run : Cursor.Run Unfenced (c.after (q ++ brk)) raws d) (closing : FirstLine d.rest q' brk' rest')
      (closes : fence? q' = some true) :
      NextBlock v c (.docString (dedent raws q.indentation) c.line) (d.after (q' ++ brk'))

/-- The blocks from a place on, up to the end of the text or to something that is no block. -/
inductive Blocks (v : Vocabulary) : Cursor → List Block → Bool → Prop where
  | atEnd {c : Cursor} {q rest : Text} (line : FirstLine c.rest q [] rest) (kind : v.kind q = .blank) :
      Blocks v c [] true
  | block {c d : Cursor} {b : Block} {bs : List Block} {complete : Bool} (next : NextBlock v c b d)
      (others : Blocks v d bs complete) : Blocks v c (b :: bs) complete
  | stuck {c : Cursor} {q brk rest : Text} (line : FirstLine c.rest q brk rest)
      (more : v.kind q = .blank → brk ≠ []) (none : ∀ b d, ¬ NextBlock v c b d) : Blocks v c [] false

variable {v : Vocabulary} {c d : Cursor} {q brk rest : Text}

/-- A line that is not blank has a character. -/
theorem Vocabulary.ne_nil_of_kind (visible : v.kind q ≠ .blank) : q ≠ [] := by
  rintro rfl
  exact visible rfl

theorem NextBlock.length_lt {b : Block} (next : NextBlock v c b d) : d.rest.length < c.rest.length := by
  have visible {q brk : Text} {kind : LineKind} (found : v.kind q = kind) (other : kind ≠ .blank) :
      q ++ brk ≠ [] := by
    have present : q ≠ [] := Vocabulary.ne_nil_of_kind (by rwa [found])
    simp [present]
  cases next with
  | blank line _ ends => exact line.length_rest_after (by simp [ends])
  | comment line kind | tags line kind | step line kind | row line kind =>
    exact line.length_rest_after (visible kind (by simp))
  | header line kind run =>
    obtain ⟨w, split, _⟩ := run.text v.progresses_free
    have first := line.length_rest_after (visible kind (by simp))
    rw [split, List.length_append] at first
    omega
  | docString line kind ends run closing =>
    obtain ⟨w, split, _⟩ := run.text progresses_unfenced
    have first := line.length_rest_after (visible kind (by simp))
    have second := congrArg List.length closing.eq_append
    rw [split] at first
    rw [closing.rest_after]
    simp only [List.length_append] at first second
    omega

/-- What block begins at a place shows on the first line. -/
theorem NextBlock.shape_unique {b b' : Block} {d' : Cursor} (next : NextBlock v c b d)
    (next' : NextBlock v c b' d') : b.shape = b'.shape := by
  have fromKind {b : Block} {d : Cursor} (next : NextBlock v c b d) :
      ∃ q brk rest, FirstLine c.rest q brk rest ∧ b.shape = match v.kind q with
        | .blank => .blank
        | .comment _ => .comment
        | .tags _ => .tags
        | .row _ => .row
        | .step _ _ => .step
        | .header kind _ _ => .header kind
        | .fence _ | .other _ => .docString := by
    cases next with
    | blank line kind | comment line kind | tags line kind | header line kind | step line kind
    | row line kind | docString line kind => exact ⟨_, _, _, line, by rw [kind]; rfl⟩
  obtain ⟨q, brk, rest, line, same⟩ := fromKind next
  obtain ⟨q', brk', rest', line', same'⟩ := fromKind next'
  obtain ⟨rfl, -⟩ := line.unique line'
  rw [same, same']

theorem exists_blocks (v : Vocabulary) (c : Cursor) : ∃ bs complete, Blocks v c bs complete := by
  induction size : c.rest.length using Nat.strong_induction_on generalizing c with
  | _ n ih =>
  subst size
  by_cases found : ∃ b d, NextBlock v c b d
  · obtain ⟨b, d, next⟩ := found
    obtain ⟨bs, complete, others⟩ := ih _ next.length_lt d rfl
    exact ⟨b :: bs, complete, .block next others⟩
  · obtain ⟨q, brk, rest, line⟩ := Text.exists_firstLine c.rest
    by_cases atEnd : v.kind q = .blank ∧ brk = []
    · obtain ⟨kind, rfl⟩ := atEnd
      exact ⟨[], true, .atEnd line kind⟩
    · exact ⟨[], false, .stuck line (fun kind last => atEnd ⟨kind, last⟩)
        fun b d next => found ⟨b, d, next⟩⟩

end FeatureFile
