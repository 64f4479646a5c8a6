import FeatureFile.Text.Basic
/-!
Parsing expressions and rules. An expression says what a text may start with; choices are ordered
and repetitions greedy, so each text has at most one reading.
-/

namespace FeatureFile

/-- A parsing expression. -/
inductive Expr where
  /-- These characters. -/
  | literal (text : Text)
  /-- One character, whatever it is. -/
  | any
  | startOfInput
  | endOfInput
  /-- What the rule of that name matches. -/
  | call (rule : String)
  | seq (first second : Expr)
  /-- The second only where the first does not match. -/
  | choice (first second : Expr)
  | star (body : Expr)
  | plus (body : Expr)
  | opt (body : Expr)
  /-- Nothing, where the body does not match. -/
  | not (body : Expr)
  /-- Nothing, where the body matches. -/
  | and (body : Expr)
  deriving DecidableEq, Repr

namespace Expr

/-- One or more expressions in a row. -/
def sequence (first : Expr) : List Expr → Expr
  | [] => first
  | next :: rest => .seq first (sequence next rest)

/-- One or more alternatives in order. -/
def choices (first : Expr) : List Expr → Expr
  | [] => first
  | next :: rest => .choice first (choices next rest)

/-- Number of operators and leaves. -/
def size : Expr → Nat
  | literal _ | any | startOfInput | endOfInput | call _ => 1
  | seq a b | choice a b => a.size + b.size + 1
  | star e | plus e | opt e | not e | and e => e.size + 1

/-- The rules an expression names. -/
def calls : Expr → List String
  | call rule => [rule]
  | literal _ | any | startOfInput | endOfInput => []
  | seq a b | choice a b => a.calls ++ b.calls
  | star e | plus e | opt e | not e | and e => e.calls

/-- The bodies of the repetitions in an expression. -/
def repeated : Expr → List Expr
  | literal _ | any | startOfInput | endOfInput | call _ => []
  | seq a b | choice a b => a.repeated ++ b.repeated
  | star e | plus e => e :: e.repeated
  | opt e | not e | and e => e.repeated

/-- The alternatives in an expression that have another one behind them. -/
def preceding : Expr → List Expr
  | literal _ | any | startOfInput | endOfInput | call _ => []
  | choice a b => a :: (a.preceding ++ b.preceding)
  | seq a b => a.preceding ++ b.preceding
  | star e | plus e | opt e | not e | and e => e.preceding

end Expr

/-- What a match of a rule leaves in the tree. -/
inductive RuleKind where
  /-- A node with the nodes below it. -/
  | normal
  /-- Only the nodes below it. -/
  | silent
  /-- A node without any below it. -/
  | atomic
  deriving DecidableEq, Repr

/-- A named expression. -/
structure Rule where
  name : String
  kind : RuleKind
  body : Expr
  deriving DecidableEq, Repr

end FeatureFile
