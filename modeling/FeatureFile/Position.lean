import FeatureFile.Text.Basic
/-!
Positions in a document. They are stored from zero in 32-bit words and shown from one.
-/

namespace FeatureFile

/-- A line and a column, both counted from zero. -/
structure LineCol where
  line : UInt32
  col : UInt32
  deriving DecidableEq, Repr

namespace LineCol

/-- The beginning of a document. -/
def start : LineCol := ⟨0, 0⟩

instance : Inhabited LineCol := ⟨start⟩

/-- Counts down from one to zero and stays there. -/
def fromOne (n : UInt32) : UInt32 :=
  if n = 0 then 0 else n - 1

/-- The position of a line and a column counted from one. -/
def ofOneIndexed (line col : UInt32) : LineCol :=
  ⟨fromOne line, fromOne col⟩

/-- The position of a line and a column counted from one, reduced to 32 bits. -/
def ofNat (line col : Nat) : LineCol :=
  ofOneIndexed (.ofNat line) (.ofNat col)

/-- The line as shown. -/
def lineOneIndexed (p : LineCol) : Nat :=
  p.line.toNat + 1

/-- The column as shown. -/
def colOneIndexed (p : LineCol) : Nat :=
  p.col.toNat + 1

/-- Line, colon, column, both counted from one. -/
protected def toString (p : LineCol) : String :=
  toString p.lineOneIndexed ++ ":" ++ toString p.colOneIndexed

instance : ToString LineCol := ⟨LineCol.toString⟩

/-- By line, then by column. -/
protected def compare (p q : LineCol) : Ordering :=
  (compare p.line q.line).then (compare p.col q.col)

/-- Line and column, counted from one, behind the first `offset` characters: one more than the line feeds
before it, and one more than the characters since the last of them. -/
def countOffset (source : Text) (offset : Nat) : Nat × Nat :=
  let before := source.take offset
  (before.count '\n' + 1, (before.reverse.takeWhile (· ≠ '\n')).length + 1)

/-- The position behind the first `offset` characters. -/
def ofOffset (source : Text) (offset : Nat) : LineCol :=
  ofNat (countOffset source offset).1 (countOffset source offset).2

end LineCol

end FeatureFile
