import FeatureFile.Text.Whitespace
/-!
Table rows: cells between pipes, the first and the last of which close the row.
-/

namespace FeatureFile.TableRow

/-- A pipe, or the longest run of other characters on the line. -/
inductive Token where
  | pipe
  | cell (content : Text)
  deriving DecidableEq, Repr

/-- Puts a character in front of the tokens behind it. -/
def Token.cons (c : Char) : List Token → List Token
  | .cell content :: tokens => .cell (c :: content) :: tokens
  | tokens => .cell [c] :: tokens

/-- The tokens of a row; a line feed belongs to none. -/
def tokens? : Text → Option (List Token)
  | [] => some []
  | c :: rest =>
    (tokens? rest).bind fun tokens =>
      if c = '\n' then none
      else if c = '|' then some (.pipe :: tokens)
      else some (Token.cons c tokens)

/-- The contents of the cells behind the first pipe; each cell needs a pipe behind it, and one
without characters is just that pipe. -/
def cells? : List Token → Option (List Text)
  | [] => some []
  | .pipe :: tokens => (cells? tokens).map ([] :: ·)
  | .cell content :: .pipe :: tokens => (cells? tokens).map (content :: ·)
  | .cell _ :: _ => none

/-- The trimmed cells of a row, if it starts and ends with a pipe and has a cell. Spaces and tabs
around the row do not matter. -/
def split? (line : Text) : Option (List Text) :=
  (tokens? (Text.trimBy Text.isBlankChar line)).bind fun tokens =>
    match tokens with
    | .pipe :: rest =>
      (cells? rest).bind fun cells =>
        if cells.isEmpty then none else some (cells.map Text.trim)
    | _ => none

end FeatureFile.TableRow
