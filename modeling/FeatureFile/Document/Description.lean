import FeatureFile.Text.Lines
import FeatureFile.Text.Whitespace
/-!
Blocks of free text: descriptions, whose layout does not matter, and doc strings, whose indentation
is relative to their fence.
-/

namespace FeatureFile

/-- The lines without the blank ones at both ends. -/
def dropBlankEnds (lines : List Text) : List Text :=
  ((lines.dropWhile (·.isEmpty)).reverse.dropWhile (·.isEmpty)).reverse

/-- A description as the tree holds it: every line trimmed, blank lines at both ends dropped. -/
def normalizeDescription (raw : Text) : Text :=
  Text.joinLines (dropBlankEnds (raw.lines.map Text.trim))

/-- The line without its whitespace at the front, of which at most `indent` characters go. -/
def dedentLine : Nat → Text → Text
  | 0, line => line
  | _ + 1, [] => []
  | indent + 1, c :: line => if Text.isWhitespace c then dedentLine indent line else c :: line

/-- The lines of a doc string, less the indentation of its fence, joined by line feeds. -/
def dedent (lines : List Text) (indent : Nat) : Text :=
  Text.joinLines (lines.map (dedentLine indent))

end FeatureFile
