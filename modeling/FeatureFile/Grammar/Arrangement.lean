import FeatureFile.Grammar.Expr
/-!
The arrangement in which rules are matched. Sequences and choices nest to the right, a repetition
that needs one match is split into the one and the others, alternatives share what they all start
with, and a list is read from its first item on, so that no item is tried twice. Which rules are
tried where, and thereby how a mismatch is worded, follows from the arrangement; apart from lists,
what matches does not.
-/

namespace FeatureFile

namespace Expr

/-- The expression with `f` applied to its operands. -/
def mapOperands (f : Expr → Expr) : Expr → Expr
  | seq a b => seq (f a) (f b)
  | choice a b => choice (f a) (f b)
  | star e => star (f e)
  | plus e => plus (f e)
  | opt e => opt (f e)
  | not e => not (f e)
  | and e => and (f e)
  | e => e

/-- The expression with `f` applied throughout, inner expressions first. -/
def mapUp (f : Expr → Expr) : Expr → Expr
  | seq a b => f (seq (a.mapUp f) (b.mapUp f))
  | choice a b => f (choice (a.mapUp f) (b.mapUp f))
  | star e => f (star (e.mapUp f))
  | plus e => f (plus (e.mapUp f))
  | opt e => f (opt (e.mapUp f))
  | not e => f (not (e.mapUp f))
  | and e => f (and (e.mapUp f))
  | e => f e

/-- The expression with `f` applied throughout, outer expressions first. The number bounds the
depth. -/
def mapDown (f : Expr → Expr) : Nat → Expr → Expr
  | 0, e => e
  | depth + 1, e => (f e).mapOperands (mapDown f depth)

/-- One expression behind another, nested to the right if the first is. -/
def joinSeq : Expr → Expr → Expr
  | seq a b, c => seq a (joinSeq b c)
  | a, b => seq a b

/-- Alternatives behind others, nested to the right if the first ones are. -/
def joinChoice : Expr → Expr → Expr
  | choice a b, c => choice a (joinChoice b c)
  | a, b => choice a b

/-- Nests to the right what nests in the first operand. -/
def nest : Expr → Expr
  | seq a b => joinSeq a b
  | choice a b => joinChoice a b
  | e => e

/-- Splits the match that a repetition needs off. -/
def unroll : Expr → Expr
  | plus e => seq e (star e)
  | e => e

/-- Puts neighbouring literals together. -/
def merge : Expr → Expr
  | seq (literal a) (literal b) => literal (a ++ b)
  | e => e

/-- Reads what two alternatives start with once. An alternative that starts with the whole of the
one before it never matches where that one does not. That an alternative is the beginning of the
one before it is used in atomic rules only. -/
def factor (atomic : Bool) : Expr → Expr
  | choice (seq a b) (seq c d) =>
    if a = c then seq a (choice b d) else choice (seq a b) (seq c d)
  | choice (seq a b) c => if atomic && a = c then seq a (opt b) else choice (seq a b) c
  | choice a (seq b c) => if a = b then a else choice a (seq b c)
  | e => e

/-- Whether the expression is a literal or a choice of literals. -/
def isLiterals : Expr → Bool
  | literal _ => true
  | choice (literal _) e => e.isLiterals
  | _ => false

/-- Whether repeating the two searches for a literal, character by character. -/
def isSearch : Expr → Expr → Bool
  | not e, any => e.isLiterals
  | _, _ => false

/-- Reads a list from its first item on: behind an item come separators with an item behind each.
In an atomic rule the search for a literal is no list. -/
def shift (atomic : Bool) : Expr → Expr
  | seq (star (seq a b)) c =>
    if a = c && !(atomic && isSearch a b) then seq a (star (seq b c)) else seq (star (seq a b)) c
  | e => e

/-- The expression as it is matched, in an atomic rule or another. Literals are put together in
atomic rules only. -/
def arranged (atomic : Bool) (e : Expr) : Expr :=
  let split := (e.mapUp nest).mapUp unroll
  let merged := if atomic then split.mapUp merge else split
  (merged.mapDown (factor atomic) merged.size).mapUp (shift atomic)

end Expr

/-- The rule as it is matched. -/
def Rule.arranged (rule : Rule) : Rule :=
  { rule with body := rule.body.arranged (rule.kind = .atomic) }

end FeatureFile
