import FeatureFile.Text.Basic
/-!
Lines of a text. A line ends at LF or at CR LF; a lone CR is text, also at the very end. The end
of the text closes its last line, and a final line break opens no further one.
-/

namespace FeatureFile.Text

/-- The lines without their line breaks. -/
def lines : Text → List Text
  | [] => []
  | '\n' :: rest => [] :: lines rest
  | '\r' :: '\n' :: rest => [] :: lines rest
  | c :: rest =>
    match lines rest with
    | [] => [[c]]
    | line :: more => (c :: line) :: more

/-- The pieces in order, one LF between neighbours. -/
def joinLines (pieces : List Text) : Text :=
  ['\n'].intercalate pieces

/-- One more than the number of lines: where the end of the document is reported. -/
def endLine (t : Text) : Nat :=
  t.lines.length + 1

end FeatureFile.Text
